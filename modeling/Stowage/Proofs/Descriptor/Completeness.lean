import Stowage.Proofs.Descriptor.Soundness

/-!
# What is in the grammar is read

A phrase of the grammar is read off the front of the tokens as what it means, and what follows it is
left, by induction on its derivation. A reader looks one token past a type expression, at whether a
type may end there (`Closes`), and past an optional part, at whether the part is there; in the
grammar what follows is always such a token. The bound suffices when the phrase is no longer.

With the other direction: a text is read exactly when it can be scanned to its end and the grammar
derives its tokens, and as what the grammar says (`parse_iff_derives`).
-/

set_option autoImplicit false

namespace Stowage.Descriptor

open Outcome (ok_bind)

variable (stop : Option Fault) {definitions : Definitions} {tokens : List Token}
  {phrase following : List Lexeme}

/-! ### Single tokens -/

theorem exists_of_lexemes_cons {lexeme : Lexeme} (h : lexemes tokens = lexeme :: following) :
    ∃ position rest, tokens = ⟨lexeme, position⟩ :: rest ∧ lexemes rest = following := by
  obtain ⟨⟨found, position⟩, rest, rfl, rfl, hrest⟩ := List.map_eq_cons_iff.1 h
  exact ⟨position, rest, rfl, hrest⟩

theorem exists_takeMark {mark : Mark} (h : lexemes tokens = .mark mark :: following) :
    ∃ rest, takeMark stop mark tokens = .ok ((), rest) ∧ lexemes rest = following := by
  obtain ⟨_, rest, rfl, hrest⟩ := exists_of_lexemes_cons h
  exact ⟨rest, if_pos rfl, hrest⟩

theorem exists_takeIdentifier {name : String}
    (h : lexemes tokens = .identifier name :: following) :
    ∃ rest, takeIdentifier stop tokens = .ok (name, rest) ∧ lexemes rest = following := by
  obtain ⟨_, rest, rfl, hrest⟩ := exists_of_lexemes_cons h
  exact ⟨rest, rfl, hrest⟩

theorem exists_takeInteger {value : Int} (h : lexemes tokens = .integer value :: following) :
    ∃ rest, takeInteger stop tokens = .ok (value, rest) ∧ lexemes rest = following := by
  obtain ⟨_, rest, rfl, hrest⟩ := exists_of_lexemes_cons h
  exact ⟨rest, rfl, hrest⟩

theorem exists_takeKeyword {word : Keyword} (h : lexemes tokens = .keyword word :: following) :
    ∃ rest, takeKeyword stop word tokens = .ok ((), rest) ∧ lexemes rest = following := by
  obtain ⟨_, rest, rfl, hrest⟩ := exists_of_lexemes_cons h
  exact ⟨rest, if_pos rfl, hrest⟩

/-- A type may end in front of the given lexemes. -/
def Closes (stop : Option Fault) : List Lexeme → Prop
  | [] => stop = none
  | lexeme :: _ => lexeme.closesType = true

variable {stop} in
theorem closeType_eq_ok (h : Closes stop (lexemes tokens)) : closeType stop tokens = .ok () := by
  cases tokens with
  | nil =>
    obtain rfl : stop = none := h
    rfl
  | cons token rest => exact if_pos h

/-- An item of a list in braces may end in front of the given lexemes. -/
inductive EndsItem : List Lexeme → Prop
  | comma {following : List Lexeme} : EndsItem (.mark .comma :: following)
  | closeBrace {following : List Lexeme} : EndsItem (.mark .closeBrace :: following)

theorem OptionalComma.endsItem {comma : List Lexeme} (h : OptionalComma comma) :
    EndsItem (comma ++ .mark .closeBrace :: following) := by
  cases h with
  | absent => exact .closeBrace
  | present => exact .comma

/-- The type of a member ends in front of its offset, or with the member. -/
theorem EndsItem.closes_append (h : EndsItem following) {offset? : Option Int}
    (hphrase : OptionalInteger .atSign phrase offset?) : Closes stop (phrase ++ following) := by
  cases hphrase with
  | absent =>
    cases h with
    | comma => exact rfl
    | closeBrace => exact rfl
  | present => exact rfl

/-- Assumes: the mark is not a separator. An integer after the mark is taken when it is there. -/
theorem exists_takeOptional {mark : Mark} (hcomma : mark ≠ .comma) (hbrace : mark ≠ .closeBrace)
    {value? : Option Int} (hphrase : OptionalInteger mark phrase value?)
    (h : lexemes tokens = phrase ++ following) (hend : EndsItem following) :
    ∃ rest, takeOptional stop mark tokens = .ok (value?, rest) ∧ lexemes rest = following := by
  cases hphrase with
  | absent =>
    refine ⟨tokens, ?_, h⟩
    cases hend with
    | comma =>
      obtain ⟨_, rest, rfl, _⟩ := exists_of_lexemes_cons h
      exact if_neg hcomma.symm
    | closeBrace =>
      obtain ⟨_, rest, rfl, _⟩ := exists_of_lexemes_cons h
      exact if_neg hbrace.symm
  | present value =>
    obtain ⟨_, tokens₁, rfl, h₁⟩ := exists_of_lexemes_cons h
    obtain ⟨rest, htake, hrest⟩ := exists_takeInteger stop h₁
    refine ⟨rest, ?_, hrest⟩
    rw [takeOptional, if_pos rfl, htake, ok_bind]

theorem exists_takeSeparator_last {comma : List Lexeme} (hcomma : OptionalComma comma)
    (h : lexemes tokens = comma ++ .mark .closeBrace :: following) :
    ∃ rest, takeSeparator stop tokens = .ok (false, rest) ∧ lexemes rest = following := by
  cases hcomma with
  | absent =>
    obtain ⟨_, rest, rfl, hrest⟩ := exists_of_lexemes_cons h
    exact ⟨rest, rfl, hrest⟩
  | present =>
    obtain ⟨_, tokens₁, rfl, h₁⟩ := exists_of_lexemes_cons h
    obtain ⟨_, rest, rfl, hrest⟩ := exists_of_lexemes_cons h₁
    exact ⟨rest, rfl, hrest⟩

theorem exists_takeSeparator_more (hphrase : ∃ name rest, phrase = .identifier name :: rest)
    (h : lexemes tokens = .mark .comma :: (phrase ++ following)) :
    ∃ rest, takeSeparator stop tokens = .ok (true, rest) ∧ lexemes rest = phrase ++ following := by
  obtain ⟨name, _, rfl⟩ := hphrase
  obtain ⟨_, tokens₁, rfl, h₁⟩ := exists_of_lexemes_cons h
  obtain ⟨_, rest, rfl, _⟩ := exists_of_lexemes_cons h₁
  exact ⟨_, rfl, h₁⟩

/-! ### Constants -/

theorem ConstantList.starts {specs : List ConstantSpec} (h : ConstantList phrase specs) :
    ∃ name rest, phrase = .identifier name :: rest := by
  cases h with
  | single h => exact h.casesOn fun _ ↦ ⟨_, _, rfl⟩
  | cons h _ => exact h.casesOn fun _ ↦ ⟨_, _, rfl⟩

theorem exists_constant {spec : ConstantSpec} (hphrase : ConstantPhrase phrase spec)
    (h : lexemes tokens = phrase ++ following) (hend : EndsItem following) :
    ∃ tokens₁ rest, takeIdentifier stop tokens = .ok (spec.name, tokens₁) ∧
      takeOptional stop .equals tokens₁ = .ok (spec.value?, rest) ∧ lexemes rest = following := by
  obtain ⟨hvalue⟩ := hphrase
  obtain ⟨tokens₁, hname, h₁⟩ := exists_takeIdentifier stop h
  obtain ⟨rest, htake, hrest⟩ := exists_takeOptional stop (by decide) (by decide) hvalue h₁ hend
  exact ⟨tokens₁, rest, hname, htake, hrest⟩

theorem exists_constants {comma : List Lexeme} {specs : List ConstantSpec}
    (hlist : ConstantList phrase specs) (hcomma : OptionalComma comma) {bound : Nat}
    (hbound : phrase.length < bound)
    (h : lexemes tokens = phrase ++ comma ++ .mark .closeBrace :: following) :
    ∃ rest, constants stop bound tokens = .ok (specs, rest) ∧ lexemes rest = following := by
  induction hlist generalizing bound tokens with
  | single hphrase =>
    obtain ⟨bound, rfl⟩ := Nat.exists_eq_add_one.2 (Nat.zero_lt_of_lt hbound)
    rw [List.append_assoc] at h
    obtain ⟨tokens₁, tokens₂, hname, hvalue, h₂⟩ := exists_constant stop hphrase h hcomma.endsItem
    obtain ⟨rest, hlast, hrest⟩ := exists_takeSeparator_last stop hcomma h₂
    refine ⟨rest, ?_, hrest⟩
    simp only [constants, hname, hvalue, hlast, ok_bind]
    rfl
  | @cons phrase list spec specs hhead htail ih =>
    obtain ⟨bound, rfl⟩ := Nat.exists_eq_add_one.2 (Nat.zero_lt_of_lt hbound)
    simp only [List.append_assoc, List.cons_append] at h
    obtain ⟨tokens₁, tokens₂, hname, hvalue, h₂⟩ := exists_constant stop hhead h .comma
    obtain ⟨tokens₃, hmore, h₃⟩ := exists_takeSeparator_more stop htail.starts h₂
    rw [← List.append_assoc] at h₃
    rw [List.length_append, List.length_cons] at hbound
    have hless : list.length < bound := by omega
    obtain ⟨rest, hothers, hrest⟩ := ih hless h₃
    refine ⟨rest, ?_, hrest⟩
    simp only [constants, hname, hvalue, hmore, hothers, ok_bind, if_true]

/-! ### Type expressions and members -/

theorem MemberList.starts {specs : List MemberSpec} (h : MemberList definitions phrase specs) :
    ∃ name rest, phrase = .identifier name :: rest := by
  cases h with
  | single h => exact h.casesOn fun _ _ ↦ ⟨_, _, rfl⟩
  | cons h _ => exact h.casesOn fun _ _ ↦ ⟨_, _, rfl⟩

theorem typeExpr_name {name : String} {position : Position} {rest : List Token}
    {type : ElementType} (hclose : Closes stop (lexemes rest))
    (htype : typeNamed definitions name = .ok type) (bound : Nat) :
    typeExpr stop definitions (bound + 1) (⟨.identifier name, position⟩ :: rest) =
      .ok (type, rest) := by
  rw [typeExpr, closeType_eq_ok hclose, ok_bind, htype, ok_bind]
  rintro _ _ rfl
  exact absurd hclose Bool.false_ne_true

mutual

/-- Assumes: the definitions made before are well-formed and give no name two types. A type
expression is read when a type may end in front of what follows. -/
theorem exists_typeExpr (hdefinitions : AllWellFormed definitions)
    (hnames : Unambiguous definitions) {phrase : List Lexeme} {type : ElementType}
    (hphrase : TypePhrase definitions phrase type) {bound : Nat} (hbound : phrase.length < bound)
    {tokens : List Token} {following : List Lexeme} (h : lexemes tokens = phrase ++ following)
    (hclose : Closes stop following) :
    ∃ rest, typeExpr stop definitions bound tokens = .ok (type, rest) ∧
      lexemes rest = following := by
  obtain ⟨bound, rfl⟩ := Nat.exists_eq_add_one.2 (Nat.zero_lt_of_lt hbound)
  cases hphrase with
  | name hname =>
    obtain ⟨_, rest, rfl, hrest⟩ := exists_of_lexemes_cons h
    subst hrest
    exact ⟨rest, typeExpr_name stop hclose ((typeNamed_eq_ok_iff hnames).2 hname) bound, rfl⟩
  | sized hsized =>
    obtain ⟨_, tokens₁, rfl, h₁⟩ := exists_of_lexemes_cons h
    obtain ⟨_, tokens₂, rfl, h₂⟩ := exists_of_lexemes_cons h₁
    obtain ⟨tokens₃, hwidth, h₃⟩ := exists_takeInteger stop h₂
    obtain ⟨rest, hparen, hrest⟩ := exists_takeMark stop h₃
    subst hrest
    refine ⟨rest, ?_, rfl⟩
    simp only [typeExpr, hwidth, hparen, closeType_eq_ok hclose, sized_eq_ok_iff.2 hsized, ok_bind]
  | @vlen phrase element helement =>
    simp only [List.cons_append, List.append_assoc, List.nil_append] at h
    obtain ⟨_, tokens₁, rfl, h₁⟩ := exists_of_lexemes_cons h
    obtain ⟨tokens₂, hless, h₂⟩ := exists_takeMark stop h₁
    have hshorter : phrase.length < bound := by
      simp only [List.length_cons, List.length_append] at hbound
      omega
    obtain ⟨tokens₃, hread, h₃⟩ :=
      exists_typeExpr hdefinitions hnames helement hshorter h₂ rfl
    obtain ⟨rest, hgreater, hrest⟩ := exists_takeMark stop h₃
    subst hrest
    refine ⟨rest, ?_, rfl⟩
    simp only [typeExpr, hless, hread, hgreater, closeType_eq_ok hclose, ok_bind]
  | @array phrase element length helement hlength hflat =>
    simp only [List.cons_append, List.append_assoc, List.nil_append] at h
    obtain ⟨_, tokens₁, rfl, h₁⟩ := exists_of_lexemes_cons h
    obtain ⟨tokens₂, hless, h₂⟩ := exists_takeMark stop h₁
    have hshorter : phrase.length < bound := by
      simp only [List.length_cons, List.length_append] at hbound
      omega
    obtain ⟨tokens₃, hread, h₃⟩ :=
      exists_typeExpr hdefinitions hnames helement hshorter h₂ rfl
    obtain ⟨tokens₄, hcomma, h₄⟩ := exists_takeMark stop h₃
    obtain ⟨tokens₅, hinteger, h₅⟩ := exists_takeInteger stop h₄
    obtain ⟨rest, hgreater, hrest⟩ := exists_takeMark stop h₅
    subst hrest
    refine ⟨rest, ?_, rfl⟩
    simp only [typeExpr, hless, hread, hcomma, hinteger, hgreater, closeType_eq_ok hclose,
      arrayOf_eq_ok_iff.2 ⟨hlength, hflat, rfl⟩, ok_bind]
  | @enum backing phrase comma specs constants hbacking hspecs hcomma hnumbered hconstants =>
    simp only [List.cons_append, List.append_assoc, List.nil_append] at h
    obtain ⟨_, tokens₁, rfl, h₁⟩ := exists_of_lexemes_cons h
    obtain ⟨tokens₂, hless, h₂⟩ := exists_takeMark stop h₁
    obtain ⟨tokens₃, hname, h₃⟩ := exists_takeIdentifier stop h₂
    obtain ⟨tokens₄, hgreater, h₄⟩ := exists_takeMark stop h₃
    obtain ⟨tokens₅, hopen, h₅⟩ := exists_takeMark stop h₄
    have hshorter : phrase.length < bound := by
      simp only [List.length_cons, List.length_append] at hbound
      omega
    rw [← List.append_assoc] at h₅
    obtain ⟨rest, hlist, hrest⟩ := exists_constants stop hspecs hcomma hshorter h₅
    subst hrest
    have htype : enumOf backing.name specs = .ok (.enum backing constants) :=
      enumOf_eq_ok_iff.2 ⟨backing, constants, rfl, hbacking, hnumbered, hconstants, rfl⟩
    refine ⟨rest, ?_, rfl⟩
    simp only [typeExpr, hless, hname, hgreater, hopen, hlist, closeType_eq_ok hclose, htype,
      ok_bind]
  | @compound phrase comma specs members size hspecs hcomma hlaidOut hcompound =>
    simp only [List.cons_append, List.append_assoc, List.nil_append] at h
    obtain ⟨_, tokens₁, rfl, h₁⟩ := exists_of_lexemes_cons h
    obtain ⟨tokens₂, hopen, h₂⟩ := exists_takeMark stop h₁
    have hshorter : phrase.length < bound := by
      simp only [List.length_cons, List.length_append] at hbound
      omega
    rw [← List.append_assoc] at h₂
    obtain ⟨rest, hlist, hrest⟩ :=
      exists_members hdefinitions hnames hspecs hcomma hshorter h₂
    subst hrest
    have htype : compoundOf specs = .ok (.compound (.ofList members) size) :=
      (compoundOf_eq_ok_iff hspecs.ne_nil (hspecs.wellFormed hdefinitions)).2
        ⟨members, size, hlaidOut, hcompound, rfl⟩
    refine ⟨rest, ?_, rfl⟩
    simp only [typeExpr, hopen, hlist, closeType_eq_ok hclose, htype, ok_bind]
termination_by (phrase.length, 0)

theorem exists_member (hdefinitions : AllWellFormed definitions)
    (hnames : Unambiguous definitions) {phrase : List Lexeme} {spec : MemberSpec}
    (hphrase : MemberPhrase definitions phrase spec) {bound : Nat} (hbound : phrase.length ≤ bound)
    {tokens : List Token} {following : List Lexeme} (h : lexemes tokens = phrase ++ following)
    (hend : EndsItem following) :
    ∃ tokens₁ tokens₂ tokens₃ rest, takeIdentifier stop tokens = .ok (spec.name, tokens₁) ∧
      takeMark stop .colon tokens₁ = .ok ((), tokens₂) ∧
      typeExpr stop definitions bound tokens₂ = .ok (spec.type, tokens₃) ∧
      takeOptional stop .atSign tokens₃ = .ok (spec.offset?, rest) ∧ lexemes rest = following := by
  cases hphrase with
  | @mk name phrase offset type offset? htype hoffset =>
    simp only [List.cons_append, List.append_assoc] at h
    obtain ⟨tokens₁, hname, h₁⟩ := exists_takeIdentifier stop h
    obtain ⟨tokens₂, hcolon, h₂⟩ := exists_takeMark stop h₁
    have hshorter : phrase.length < bound := by
      simp only [List.length_cons, List.length_append] at hbound
      omega
    obtain ⟨tokens₃, hread, h₃⟩ :=
      exists_typeExpr hdefinitions hnames htype hshorter h₂ (hend.closes_append stop hoffset)
    obtain ⟨rest, htake, hrest⟩ :=
      exists_takeOptional stop (by decide) (by decide) hoffset h₃ hend
    exact ⟨tokens₁, tokens₂, tokens₃, rest, hname, hcolon, hread, htake, hrest⟩
termination_by (phrase.length, 1)

theorem exists_members (hdefinitions : AllWellFormed definitions)
    (hnames : Unambiguous definitions) {phrase comma : List Lexeme} {specs : List MemberSpec}
    (hlist : MemberList definitions phrase specs) (hcomma : OptionalComma comma) {bound : Nat}
    (hbound : phrase.length < bound) {tokens : List Token} {following : List Lexeme}
    (h : lexemes tokens = phrase ++ comma ++ .mark .closeBrace :: following) :
    ∃ rest, members stop definitions bound tokens = .ok (specs, rest) ∧
      lexemes rest = following := by
  obtain ⟨bound, rfl⟩ := Nat.exists_eq_add_one.2 (Nat.zero_lt_of_lt hbound)
  cases hlist with
  | single hphrase =>
    rw [List.append_assoc] at h
    obtain ⟨tokens₁, tokens₂, tokens₃, tokens₄, hname, hcolon, htype, hoffset, h₄⟩ :=
      exists_member hdefinitions hnames hphrase (Nat.le_of_lt_succ hbound) h hcomma.endsItem
    obtain ⟨rest, hlast, hrest⟩ := exists_takeSeparator_last stop hcomma h₄
    refine ⟨rest, ?_, hrest⟩
    simp only [members, hname, hcolon, htype, hoffset, hlast, ok_bind]
    rfl
  | @cons phrase list spec specs hhead htail =>
    simp only [List.append_assoc, List.cons_append] at h
    rw [List.length_append, List.length_cons] at hbound
    have hshorter : phrase.length ≤ bound := by omega
    have hless : list.length < bound := by omega
    obtain ⟨tokens₁, tokens₂, tokens₃, tokens₄, hname, hcolon, htype, hoffset, h₄⟩ :=
      exists_member hdefinitions hnames hhead hshorter h .comma
    obtain ⟨tokens₅, hmore, h₅⟩ := exists_takeSeparator_more stop htail.starts h₄
    rw [← List.append_assoc] at h₅
    obtain ⟨rest, hothers, hrest⟩ := exists_members hdefinitions hnames htail hcomma hless h₅
    refine ⟨rest, ?_, hrest⟩
    simp only [members, hname, hcolon, htype, hoffset, hmore, hothers, ok_bind, if_true]
termination_by (phrase.length, 2)

end

/-! ### Documents -/

theorem DefinitionPhrase.starts {found : Definitions}
    (h : DefinitionPhrase definitions phrase found) :
    ∃ rest, phrase = .keyword .define :: rest :=
  h.casesOn fun _ _ ↦ ⟨_, rfl⟩

theorem DefinitionPhrase.length_pos {found : Definitions}
    (h : DefinitionPhrase definitions phrase found) : 0 < phrase.length := by
  obtain ⟨_, rfl⟩ := h.starts
  exact Nat.succ_pos _

theorem DefinitionList.starts {found : Definitions} (h : DefinitionList definitions phrase found) :
    ∃ rest, phrase = .keyword .define :: rest := by
  cases h with
  | single h => exact h.starts
  | cons h _ =>
    obtain ⟨rest, rfl⟩ := h.starts
    exact ⟨_, rfl⟩

theorem DefinitionPhrase.unambiguous {found : Definitions} (hnames : Unambiguous definitions)
    (h : DefinitionPhrase definitions phrase found) : Unambiguous found := by
  obtain ⟨_, hfree⟩ := h
  exact hnames.concat hfree _

/-- A definition may end in front of the given lexemes. -/
def ClosesDefinition (stop : Option Fault) : List Lexeme → Prop
  | [] => stop = none
  | lexeme :: _ => lexeme = .keyword .define

variable {stop} in
theorem closeDefinition_eq_ok (h : ClosesDefinition stop (lexemes tokens)) :
    closeDefinition stop tokens = .ok () := by
  cases tokens with
  | nil =>
    obtain rfl : stop = none := h
    rfl
  | cons token rest => exact if_pos h

variable {stop} in
theorem ClosesDefinition.closes (h : ClosesDefinition stop following) : Closes stop following := by
  cases following with
  | nil => exact h
  | cons lexeme rest =>
    obtain rfl : lexeme = .keyword .define := h
    exact rfl

/-- Assumes: the definitions made before are well-formed and give no name two types. A definition
is read; what follows it, unless it is the end, is read after one more definition. -/
theorem exists_definition (hdefinitions : AllWellFormed definitions)
    (hnames : Unambiguous definitions) {found : Definitions}
    (hphrase : DefinitionPhrase definitions phrase found) {bound : Nat}
    (hbound : phrase.length ≤ bound + 1) (h : lexemes tokens = phrase ++ following)
    (hclose : ClosesDefinition stop following) :
    ∃ rest, lexemes rest = following ∧
      (rest = [] → definitionList stop (bound + 1) definitions tokens = .ok found) ∧
      (rest ≠ [] → definitionList stop (bound + 1) definitions tokens =
        definitionList stop bound found rest) := by
  obtain @⟨name, phrase, type, htype, hfree⟩ := hphrase
  have hshorter : phrase.length < bound := by
    simp only [List.length_cons] at hbound
    omega
  obtain ⟨tokens₁, htake, h₁⟩ := exists_takeKeyword stop h
  obtain ⟨tokens₂, hname, h₂⟩ := exists_takeIdentifier stop h₁
  obtain ⟨tokens₃, has, h₃⟩ := exists_takeKeyword stop h₂
  obtain ⟨rest, hread, hrest⟩ :=
    exists_typeExpr stop hdefinitions hnames htype hshorter h₃ hclose.closes
  subst hrest
  have hend := closeDefinition_eq_ok hclose
  have hmore : define definitions name type = .ok (definitions ++ [(name, type)]) :=
    define_eq_ok_iff.2 ⟨hfree, rfl⟩
  refine ⟨rest, rfl, ?_, ?_⟩
  · rintro rfl
    simp only [definitionList, htake, hname, has, hread, hend, hmore, ok_bind]
  · intro hne
    obtain ⟨_, _, rfl⟩ := List.exists_cons_of_ne_nil hne
    simp only [definitionList, htake, hname, has, hread, hend, hmore, ok_bind]

/-- Assumes: the definitions made before are well-formed and give no name two types. Definitions up
to the end are read. -/
theorem definitionList_eq_ok (hdefinitions : AllWellFormed definitions)
    (hnames : Unambiguous definitions) {found : Definitions}
    (hlist : DefinitionList definitions phrase found) {bound : Nat}
    (hbound : phrase.length ≤ bound) (h : lexemes tokens = phrase) :
    definitionList none bound definitions tokens = .ok found := by
  induction hlist generalizing bound tokens with
  | single hphrase =>
    have hpos := Nat.lt_of_lt_of_le hphrase.length_pos hbound
    obtain ⟨bound, rfl⟩ := Nat.exists_eq_add_one.2 hpos
    obtain ⟨rest, hrest, hread, _⟩ := exists_definition none hdefinitions hnames hphrase hbound
      (h.trans (List.append_nil _).symm) rfl
    exact hread (List.map_eq_nil_iff.1 hrest)
  | @cons definitions more found phrase list hhead htail ih =>
    have hpos := hhead.length_pos
    rw [List.length_append] at hbound
    obtain ⟨bound, rfl⟩ : ∃ less, bound = less + 1 := Nat.exists_eq_add_one.2 (by omega)
    have hfirst : phrase.length ≤ bound + 1 := by omega
    have hothers : list.length ≤ bound := by omega
    obtain ⟨_, hnext⟩ := htail.starts
    obtain ⟨rest, hrest, _, hread⟩ :=
      exists_definition none hdefinitions hnames hhead hfirst h (hnext ▸ rfl)
    have hne : rest ≠ [] := by
      rintro rfl
      exact List.cons_ne_nil _ _ (hrest.trans hnext).symm
    rw [hread hne]
    exact ih (hhead.wellFormed hdefinitions) (hhead.unambiguous hnames) hothers hrest

theorem TypePhrase.ne_define {type : ElementType} (h : TypePhrase definitions phrase type)
    (rest : List Lexeme) : phrase ≠ .keyword .define :: rest := by
  cases h <;> simp

/-- A document of the grammar is read when nothing stopped the scan. -/
theorem document_eq_ok {tokens : List Token} {found : Document}
    (h : Derives (lexemes tokens) found) : document ⟨tokens, none⟩ = .ok found := by
  unfold document
  cases h with
  | type h =>
    obtain ⟨rest, hread, hrest⟩ := exists_typeExpr none allWellFormed_nil unambiguous_nil h
      (Nat.lt_succ_of_le (Nat.le_of_eq (length_lexemes tokens))) (List.append_nil _).symm rfl
    obtain rfl : rest = [] := List.map_eq_nil_iff.1 hrest
    dsimp only
    split
    · exact absurd rfl (h.ne_define _)
    · rw [hread]
      rfl
  | definitions h =>
    obtain ⟨_, hstarts⟩ := h.starts
    obtain ⟨_, _, rfl, _⟩ := exists_of_lexemes_cons hstarts
    have hread := definitionList_eq_ok allWellFormed_nil unambiguous_nil h
      (Nat.le_of_eq (length_lexemes _)) rfl
    dsimp only
    rw [hread]
    rfl

/-- A sequence of lexemes is one document at most. -/
theorem Derives.unique {tokens : List Token} {first second : Document}
    (hfirst : Derives (lexemes tokens) first) (hsecond : Derives (lexemes tokens) second) :
    first = second :=
  Except.ok.inj ((document_eq_ok hfirst).symm.trans (document_eq_ok hsecond))

theorem document_eq_ok_iff {text : String} {found : Document} :
    document (Scan.ofText text) = .ok found ↔
      ∃ tokens, tokenize text = .ok tokens ∧ Derives (lexemes tokens) found := by
  constructor
  · intro h
    obtain ⟨hderives, hstop⟩ := derives_of_document h
    exact ⟨_, tokenize_eq_ok_iff.2 ⟨hstop, rfl⟩, hderives⟩
  · rintro ⟨tokens, htokens, hderives⟩
    obtain ⟨hstop, rfl⟩ := tokenize_eq_ok_iff.1 htokens
    have hread := document_eq_ok hderives
    rwa [← hstop] at hread

/-- Descriptor text is read exactly when it can be scanned to its end and the grammar derives its
tokens: as the type that the document describes, and as the definitions that it consists of. -/
theorem parse_iff_derives (text : String) :
    (∀ type, parse text = .ok type ↔ ∃ tokens found, tokenize text = .ok tokens ∧
      Derives (lexemes tokens) found ∧ found.type? = some type) ∧
    ∀ definitions, parseDefinitions text = .ok definitions ↔ ∃ tokens,
      tokenize text = .ok tokens ∧ Derives (lexemes tokens) (.definitions definitions) := by
  constructor
  · intro type
    rw [parse_eq_ok_iff]
    constructor
    · rintro ⟨found, hfound, htype⟩
      obtain ⟨tokens, htokens, hderives⟩ := document_eq_ok_iff.1 hfound
      exact ⟨tokens, found, htokens, hderives, htype⟩
    · rintro ⟨tokens, found, htokens, hderives, htype⟩
      exact ⟨found, document_eq_ok_iff.2 ⟨tokens, htokens, hderives⟩, htype⟩
  · intro definitions
    rw [parseDefinitions_eq_ok_iff, document_eq_ok_iff]

example : parse "compound \x7b tag: int8, window: array<int16, 2> @ 2, \x7d" =
    .ok (.compound (.ofList [⟨"tag", 0, .number .int8⟩,
      ⟨"window", 2, .array (.number .int16) 2⟩]) 6) := by decide +kernel

end Stowage.Descriptor
