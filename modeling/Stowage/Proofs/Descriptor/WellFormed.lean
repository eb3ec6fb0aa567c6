import Stowage.Proofs.Descriptor.Meaning

/-!
# Descriptor text describes well-formed types

A phrase of the grammar means a well-formed type, when the definitions before it do, by induction
on its derivation: every rule checks what well-formed types have in common.
-/

set_option autoImplicit false

namespace Stowage.Descriptor

/-- Every defined type is well-formed. -/
def AllWellFormed (definitions : Definitions) : Prop :=
  ∀ d ∈ definitions, d.2.WellFormed

variable {definitions : Definitions} {phrase : List Lexeme} {type : ElementType}

theorem Builtin.wellFormed {name : String} (h : Builtin name type) : type.WellFormed := by
  cases h with
  | number | string => trivial
  | reference => exact (by decide : 0 < referenceSize)

theorem Named.wellFormed (hdefinitions : AllWellFormed definitions) {name : String}
    (h : Named definitions name type) : type.WellFormed := by
  cases h with
  | builtin h => exact h.wellFormed
  | defined h => exact hdefinitions _ h

theorem Sized.wellFormed {name : String} {width : Int} (h : Sized width name type) :
    type.WellFormed := by
  cases h with
  | string h | reference h => exact h

theorem ConstantList.ne_nil {specs : List ConstantSpec} (h : ConstantList phrase specs) :
    specs ≠ [] := by
  cases h with
  | single | cons => exact List.cons_ne_nil _ _

theorem MemberList.ne_nil {specs : List MemberSpec} (h : MemberList definitions phrase specs) :
    specs ≠ [] := by
  cases h with
  | single | cons => exact List.cons_ne_nil _ _

theorem LaidOut.wellFormed_compound {specs : List MemberSpec} {members : List Member} {size : Int}
    (hlaidOut : LaidOut 0 specs members) (hne : specs ≠ [])
    (hspecs : ∀ s ∈ specs, s.type.WellFormed) (hcompound : Compound members size) :
    (ElementType.compound (.ofList members) size).WellFormed := by
  have htypes := hlaidOut.wellFormed hspecs
  refine ⟨Members.wellFormed_iff.2 ?_, ⟨?_, ?_, ?_, ?_⟩⟩ <;> rw [Members.toList_ofList]
  · exact fun m hm ↦ ⟨hcompound.offset_nonneg m hm, htypes m hm⟩
  · exact hlaidOut.ne_nil hne
  · exact hcompound.names
  · exact hcompound.apart
  · exact hcompound.size_eq

mutual

/-- Assumes: the definitions made before are well-formed. A type expression means a well-formed
type. -/
theorem TypePhrase.wellFormed (hdefinitions : AllWellFormed definitions) {phrase : List Lexeme}
    {type : ElementType} : TypePhrase definitions phrase type → type.WellFormed
  | .name h => h.wellFormed hdefinitions
  | .sized h => h.wellFormed
  | .vlen helement =>
    have hwellFormed := TypePhrase.wellFormed hdefinitions helement
    hwellFormed
  | .array helement hlength hflat => ⟨TypePhrase.wellFormed hdefinitions helement, hlength, hflat⟩
  | .enum hbacking hspecs _ hnumbered hnames =>
    ⟨hbacking, hnumbered.ne_nil hspecs.ne_nil, hnames⟩
  | .compound hspecs _ hlaidOut hcompound =>
    hlaidOut.wellFormed_compound hspecs.ne_nil (MemberList.wellFormed hdefinitions hspecs) hcompound

theorem MemberPhrase.wellFormed (hdefinitions : AllWellFormed definitions) {phrase : List Lexeme}
    {spec : MemberSpec} : MemberPhrase definitions phrase spec → spec.type.WellFormed
  | .mk htype _ => TypePhrase.wellFormed hdefinitions htype

theorem MemberList.wellFormed (hdefinitions : AllWellFormed definitions) {phrase : List Lexeme}
    {specs : List MemberSpec} :
    MemberList definitions phrase specs → ∀ s ∈ specs, s.type.WellFormed
  | .single h => List.forall_mem_singleton.2 (MemberPhrase.wellFormed hdefinitions h)
  | .cons hhead htail =>
    List.forall_mem_cons.2
      ⟨MemberPhrase.wellFormed hdefinitions hhead, MemberList.wellFormed hdefinitions htail⟩

end

theorem DefinitionPhrase.wellFormed {found : Definitions} (hdefinitions : AllWellFormed definitions)
    (h : DefinitionPhrase definitions phrase found) : AllWellFormed found := by
  obtain ⟨htype, _⟩ := h
  intro d hd
  rcases List.mem_append.1 hd with hd | hd
  · exact hdefinitions d hd
  · exact List.mem_singleton.1 hd ▸ htype.wellFormed hdefinitions

theorem DefinitionList.wellFormed {found : Definitions} (hdefinitions : AllWellFormed definitions)
    (h : DefinitionList definitions phrase found) : AllWellFormed found := by
  induction h with
  | single h => exact h.wellFormed hdefinitions
  | cons hhead _ ih => exact ih (hhead.wellFormed hdefinitions)

theorem allWellFormed_nil : AllWellFormed [] := fun _ hd ↦ absurd hd List.not_mem_nil

/-- What a document holds is well-formed. -/
def Document.WellFormed : Document → Prop
  | .type described => described.WellFormed
  | .definitions defined => AllWellFormed defined

theorem Document.WellFormed.of_type? {found : Document} (h : found.WellFormed)
    (htype : found.type? = some type) : type.WellFormed := by
  cases found with
  | type described => exact Option.some.inj htype ▸ h
  | definitions defined =>
    obtain ⟨d, hlast, rfl⟩ := Option.map_eq_some_iff.1 htype
    exact h d (List.mem_of_getLast? hlast)

theorem Derives.wellFormed {found : Document} (h : Derives phrase found) : found.WellFormed := by
  cases h with
  | type h => exact h.wellFormed allWellFormed_nil
  | definitions h => exact h.wellFormed allWellFormed_nil

end Stowage.Descriptor
