import Stowage.Proofs.Outcome
import Stowage.Proofs.Registry.Extension

/-!
# Registered types are classified as themselves

A catalogue only answers questions about one type at a time, and `Catalogue.classify` puts the
answers together again. For a type that can be put together at all (`ElementType.Classifiable`) the
outcome, if there is one, is the type itself (`eq_of_classifyWithin`).
-/

set_option autoImplicit false

namespace Stowage

mutual

/-- The answers about the type determine it: enumerations stand over integer types, and the size of
a compound is declared or else computed from its members. -/
def ElementType.Classifiable : ElementType → Prop
  | .vlen element => element.Classifiable
  | .array element _ => element.Classifiable
  | .enum backing _ => backing.isInteger = true
  | .compound members size =>
    members.Classifiable ∧ (0 ≤ size ∨ size = extent members.toList)
  | _ => True

/-- Each member has such a type. -/
def Members.Classifiable : Members → Prop
  | .nil => True
  | .cons _ _ type rest => type.Classifiable ∧ rest.Classifiable

end

theorem Members.Classifiable.of_mem {members : Members} (h : members.Classifiable)
    {member : Member} (hmem : member ∈ members.toList) : member.type.Classifiable := by
  match members, h with
  | .nil, _ => exact absurd hmem List.not_mem_nil
  | .cons _ _ _ rest, ⟨htype, hrest⟩ =>
    rcases List.mem_cons.1 hmem with rfl | hmem
    · exact htype
    · exact Members.Classifiable.of_mem hrest hmem

/-- A compound is put together with its own size. -/
theorem ElementType.compoundOf_toList {members : Members} {size : Int}
    (h : (ElementType.compound members size).Classifiable) :
    compoundOf members.toList size = .compound members size := by
  rw [compoundOf, Members.ofList_toList]
  split
  · rcases h.2 with hpos | hsize
    · omega
    · rw [← hsize]
  · rfl

mutual

theorem ElementType.WellFormed.classifiable {type : ElementType} (h : type.WellFormed) :
    type.Classifiable := by
  match type, h with
  | .number _, _ | .fixedString _, _ | .string, _ | .reference _, _ => trivial
  | .vlen element, h =>
    have helement : element.WellFormed := h
    exact helement.classifiable
  | .array _ _, ⟨helement, _, _⟩ => exact helement.classifiable
  | .enum _ _, ⟨hbacking, _, _⟩ => exact hbacking
  | .compound _ _, ⟨hmembers, hplaced⟩ => exact ⟨hmembers.classifiable, .inr hplaced.size_eq⟩

theorem Members.WellFormed.classifiable {members : Members} (h : members.WellFormed) :
    members.Classifiable := by
  match members, h with
  | .nil, _ => trivial
  | .cons _ _ _ _, ⟨_, htype, hrest⟩ => exact ⟨htype.classifiable, hrest.classifiable⟩

end

/-- Results collected over the indices of a list are its elements when each of them is. -/
theorem Outcome.mapM_range_eq {α : Type} {items found : List α} {f : Nat → Except Fault α}
    (hf : ∀ (i : Nat) (hi : i < items.length) (a : α), f i = .ok a → a = items[i])
    (h : (List.range items.length).mapM f = .ok found) : found = items := by
  have hall := List.forall₂_iff_get.1 (Outcome.mapM_eq_ok_iff.1 h)
  obtain ⟨hlength, hget⟩ := hall
  rw [List.length_range] at hlength
  refine List.ext_getElem hlength.symm fun i hi hi' ↦ ?_
  have hone := hget i (by rw [List.length_range]; exact hi') hi
  simp only [List.get_eq_getElem, List.getElem_range] at hone
  exact hf i hi' _ hone

namespace Registry

variable {registry : Registry} {id : Int} {type : ElementType}

/-- The number that a type is found under stands for the type. -/
theorem typeOf_of_idOf (h : registry.idOf type = .ok id) : registry.typeOf id = .ok type := by
  unfold idOf idOf? at h
  split at h
  · next number hnumber =>
    obtain ⟨index, hindex, rfl⟩ := Option.map_eq_some_iff.1 hnumber
    obtain rfl := Except.ok.inj h
    refine typeOf_eq_ok.2 ⟨by omega, ?_⟩
    have hposition : (((index + 1 : Nat) : Int) - 1).toNat = index := by omega
    obtain ⟨hlt, hget, _⟩ := List.idxOf?_eq_some_iff.1 hindex
    rw [hposition, List.getElem?_eq_getElem hlt, hget]
  · exact absurd h (by simp)

theorem pick_natCast {α : Type} {items : List α} {i : Nat} (hi : i < items.length) :
    pick items i = .ok items[i] := by
  have hneg : ¬ (i : Int) < 0 := by omega
  simp [pick, hneg, hi]

/-- The elements of a sequence are found under their number. -/
theorem idOf_of_elementOf_vlen {element : ElementType} {elementId : Int}
    (htype : registry.typeOf id = .ok (.vlen element))
    (h : registry.elementOf id = .ok elementId) : registry.idOf element = .ok elementId := by
  rw [elementOf, htype] at h
  exact h

theorem idOf_of_elementOf_array {element : ElementType} {length elementId : Int}
    (htype : registry.typeOf id = .ok (.array element length))
    (h : registry.elementOf id = .ok elementId) : registry.idOf element = .ok elementId := by
  rw [elementOf, htype] at h
  exact h

section Enum

variable {backing : NumberType} {constants : List (String × Int)} {i : Nat}
  (htype : registry.typeOf id = .ok (.enum backing constants)) (hi : i < constants.length)

include htype

theorem memberName_enum : registry.catalogue.memberName id i = .ok constants[i].1 := by
  simp [catalogue, memberName, htype, bind, Except.bind, pick_natCast hi, Except.map]

theorem memberValue_enum : registry.catalogue.memberValue id i = .ok constants[i].2 := by
  simp [catalogue, memberValue, htype, bind, Except.bind, pick_natCast hi, Except.map]

end Enum

section Compound

variable {members : Members} {size : Int} {i : Nat}
  (htype : registry.typeOf id = .ok (.compound members size)) (hi : i < members.toList.length)

include htype

theorem memberName_compound : registry.catalogue.memberName id i = .ok members.toList[i].name := by
  simp [catalogue, memberName, htype, bind, Except.bind, pick_natCast hi, Except.map]

theorem memberOffset_compound :
    registry.catalogue.memberOffset id i = .ok members.toList[i].offset := by
  simp [catalogue, member, htype, bind, Except.bind, pick_natCast hi, Except.map]

theorem memberType_compound :
    registry.catalogue.memberType id i = registry.idOf members.toList[i].type := by
  simp [catalogue, memberType, member, htype, bind, Except.bind, pick_natCast hi]

end Compound

/-- The constants of a registered enumeration, asked for one by one. -/
theorem eq_of_enum_constants {backing : NumberType} {constants found : List (String × Int)}
    (htype : registry.typeOf id = .ok (.enum backing constants))
    (h : ((List.range constants.length).mapM fun (i : Nat) => do
      let name ← registry.catalogue.memberName id i
      let value ← registry.catalogue.memberValue id i
      .ok (name, value)) = .ok found) : found = constants := by
  refine Outcome.mapM_range_eq (fun i hi constant hconstant ↦ ?_) h
  rw [memberName_enum htype hi, memberValue_enum htype hi] at hconstant
  exact (Except.ok.inj hconstant).symm

/-- Assumes: the types of the members of a registered compound are classified as themselves. So are
the members, asked for one by one. -/
theorem eq_of_compound_members {members : Members} {size : Int} {found : List Member}
    {classify : Int → Except Fault ElementType}
    (htype : registry.typeOf id = .ok (.compound members size))
    (hparts : ∀ m ∈ members.toList, ∀ memberId type, registry.typeOf memberId = .ok m.type →
      classify memberId = .ok type → type = m.type)
    (h : ((List.range members.toList.length).mapM fun (i : Nat) => do
      let name ← registry.catalogue.memberName id i
      let offset ← registry.catalogue.memberOffset id i
      let type ← classify (← registry.catalogue.memberType id i)
      .ok (⟨name, offset, type⟩ : Member)) = .ok found) : found = members.toList := by
  refine Outcome.mapM_range_eq (fun i hi member hmember ↦ ?_) h
  rw [memberName_compound htype hi, memberOffset_compound htype hi, memberType_compound htype hi,
    Outcome.ok_bind, Outcome.ok_bind] at hmember
  obtain ⟨memberId, hid, hmember⟩ := Outcome.bind_eq_ok.1 hmember
  obtain ⟨type, hclassified, hmember⟩ := Outcome.bind_eq_ok.1 hmember
  obtain rfl := hparts _ (List.getElem_mem hi) memberId type (typeOf_of_idOf hid) hclassified
  exact (Except.ok.inj hmember).symm

/-- Assumes: a number that stands for a classifiable type. The number is classified as this type. -/
theorem eq_of_classifyWithin {found : ElementType} (htype : registry.typeOf id = .ok found)
    (hclassifiable : found.Classifiable) (bound : Nat)
    (h : registry.catalogue.classifyWithin bound id = .ok type) : type = found := by
  induction bound generalizing id type found with
  | zero => exact absurd h (by simp [Catalogue.classifyWithin])
  | succ bound ih =>
    rw [Catalogue.classifyWithin] at h
    have hclass : registry.catalogue.classOf id = .ok (some found.typeClass) := by
      simp [catalogue, htype, Except.map]
    have hsize : registry.catalogue.sizeOf id = .ok found.size := by
      simp [catalogue, htype, Except.map]
    rw [hclass, hsize, Outcome.ok_bind, Outcome.ok_bind] at h
    match found, hclassifiable with
    | .number type, _ => cases type <;> exact (Except.ok.inj h).symm
    | .fixedString width, _ =>
      have hfixed : registry.catalogue.isVariableString id = .ok false := by
        simp [catalogue, htype, Except.map]
      dsimp only [ElementType.typeClass] at h
      rw [hfixed] at h
      exact (Except.ok.inj h).symm
    | .string, _ =>
      have hstring : registry.catalogue.isVariableString id = .ok true := by
        simp [catalogue, htype, Except.map]
      dsimp only [ElementType.typeClass] at h
      rw [hstring] at h
      exact (Except.ok.inj h).symm
    | .vlen element, hvlen =>
      obtain ⟨elementId, helementId, hinner⟩ := Outcome.bind_eq_ok.1 h
      obtain ⟨inner, hinner, hresult⟩ := Outcome.bind_eq_ok.1 hinner
      have helement := typeOf_of_idOf (idOf_of_elementOf_vlen htype helementId)
      obtain rfl := ih helement hvlen hinner
      exact (Except.ok.inj hresult).symm
    | .array element length, harray =>
      have hdimensions : registry.catalogue.dimensionsOf id = .ok [length] := by
        simp [catalogue, dimensionsOf, htype, bind, Except.bind]
      dsimp only [ElementType.typeClass] at h
      rw [hdimensions, Outcome.ok_bind] at h
      obtain ⟨elementId, helementId, hinner⟩ := Outcome.bind_eq_ok.1 h
      obtain ⟨inner, hinner, hresult⟩ := Outcome.bind_eq_ok.1 hinner
      have helement := typeOf_of_idOf (idOf_of_elementOf_array htype helementId)
      obtain rfl := ih helement harray hinner
      exact (Except.ok.inj hresult).symm
    | .reference width, _ => exact (Except.ok.inj h).symm
    | .enum backing constants, hbacking =>
      have hinteger : NumberType.integerOfSize? (ElementType.enum backing constants).size =
          some backing := NumberType.integerOfSize?_size backing hbacking
      dsimp only [ElementType.typeClass] at h
      rw [hinteger] at h
      dsimp only at h
      have hcount : registry.catalogue.memberCount id = .ok constants.length := by
        simp [catalogue, memberCount, htype, bind, Except.bind]
      rw [hcount, Outcome.ok_bind] at h
      obtain ⟨named, hnamed, hresult⟩ := Outcome.bind_eq_ok.1 h
      rw [← eq_of_enum_constants htype hnamed]
      exact (Except.ok.inj hresult).symm
    | .compound members size, hmembers =>
      dsimp only [ElementType.typeClass] at h
      have hcount : registry.catalogue.memberCount id = .ok members.toList.length := by
        simp [catalogue, memberCount, htype, bind, Except.bind]
      rw [hcount, Outcome.ok_bind] at h
      obtain ⟨found, hfound, hresult⟩ := Outcome.bind_eq_ok.1 h
      have hsame := eq_of_compound_members htype
        (fun m hm memberId type hmember hinner ↦ ih hmember (hmembers.1.of_mem hm) hinner) hfound
      rw [hsame, ElementType.size, ElementType.compoundOf_toList hmembers] at hresult
      exact (Except.ok.inj hresult).symm

/-- Assumes: the number of a well-formed sequence type. Its elements are those of the type. -/
theorem eq_of_sequenceElement {element base : ElementType}
    (htype : registry.typeOf id = .ok (.vlen element))
    (hwellFormed : (ElementType.vlen element).WellFormed)
    (h : registry.catalogue.sequenceElement id = .ok base) : base = element := by
  obtain ⟨found, hfound, h⟩ := Outcome.bind_eq_ok.1 h
  obtain rfl := eq_of_classifyWithin htype hwellFormed.classifiable _ hfound
  exact (Except.ok.inj h).symm

theorem eq_of_arrayElement {element : ElementType} {length : Int} {found : ElementType × Int}
    (htype : registry.typeOf id = .ok (.array element length))
    (hwellFormed : (ElementType.array element length).WellFormed)
    (h : registry.catalogue.arrayElement id = .ok found) : found = (element, length) := by
  obtain ⟨type, hclassified, h⟩ := Outcome.bind_eq_ok.1 h
  obtain rfl := eq_of_classifyWithin htype hwellFormed.classifiable _ hclassified
  exact (Except.ok.inj h).symm

end Registry

end Stowage
