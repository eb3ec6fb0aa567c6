import Stowage.Proofs.ElementType.Laid
import Stowage.Proofs.Outcome
import Stowage.Proofs.Span
import Stowage.Record.Layout

/-!
# Accepted record layouts

`RecordLayout.check` compares neighbours in order of offsets only. That is enough: the fields of an
accepted layout lie beside each other and inside a record, in whatever order they are listed and
with whatever gaps (`RecordLayout.Accepted.laid`). Layouts given directly may have fields that share
a name, strings without width, and records that end behind their last field.
-/

set_option autoImplicit false

namespace Stowage

namespace RecordLayout

variable {layout : RecordLayout}

/-! ### Fields -/

/-- Among the fields only strings hold addresses. -/
theorem eq_string_of_isVariable {type : ElementType} (hfield : isFieldType type = true)
    (hvariable : type.isVariable = true) : type = .string := by
  match type, hfield, hvariable with
  | .string, _, _ => rfl

/-- The field is a number or a string and lies inside a record. -/
def Admits (layout : RecordLayout) (field : Member) : Prop :=
  isFieldType field.type = true ∧ 0 ≤ field.offset ∧ field.stop ≤ layout.size

theorem checkField_eq_ok_iff {field : Member} :
    checkField layout.size field = .ok () ↔ layout.Admits field := by
  unfold checkField Admits
  by_cases htype : isFieldType field.type = true
  · rw [htype, Bool.not_true, if_neg Bool.false_ne_true]
    by_cases hbounds : field.offset < 0 ∨ field.stop > layout.size
    · rw [if_pos hbounds]
      constructor
      · exact fun h ↦ absurd h (by simp)
      · rintro ⟨_, hoffset, hstop⟩
        omega
    · rw [if_neg hbounds]
      exact ⟨fun _ ↦ ⟨rfl, by omega, by omega⟩, fun _ ↦ rfl⟩
  · rw [Bool.eq_false_iff.2 htype]
    simp

theorem check_eq_ok_iff :
    layout.check = .ok () ↔ (∀ field ∈ layout.fields, layout.Admits field) ∧
      Span.firstOverlap? (layout.fields.map fieldSpan) = none := by
  unfold check
  rw [← forall₂_congr fun field _ ↦ checkField_eq_ok_iff, ← Outcome.forM_eq_ok_iff]
  rcases layout.fields.forM (checkField layout.size) with fault | ⟨⟩
  · simp
  · rcases Span.firstOverlap? (layout.fields.map fieldSpan) with _ | ⟨before, span⟩ <;> simp

/-- The layout has fields that can be packed. -/
theorem isFieldType_of_check (h : layout.check = .ok ()) :
    ∀ field ∈ layout.fields, isFieldType field.type = true :=
  fun field hfield ↦ ((check_eq_ok_iff.1 h).1 field hfield).1

/-- Assumes: every field takes bytes. A layout is accepted when it admits its fields and these lie
beside each other. -/
theorem check_eq_ok_iff_apart (hsize : ∀ field ∈ layout.fields, 0 < field.type.size) :
    layout.check = .ok () ↔ (∀ field ∈ layout.fields, layout.Admits field) ∧
      layout.fields.Pairwise Member.Apart :=
  check_eq_ok_iff.trans (and_congr_right fun _ ↦ firstOverlap?_members_eq_none_iff hsize)

/-- The layout of a well-formed compound of numbers and strings is accepted. -/
theorem check_of_wellFormed {members : Members} {size : Int}
    (h : (ElementType.compound members size).WellFormed)
    (hfields : ∀ m ∈ members.toList, isFieldType m.type = true) :
    (ofMembers members size).check = .ok () := by
  obtain ⟨hmembers, hplaced⟩ := h
  have hsize : ∀ m ∈ members.toList, 0 < m.type.size :=
    fun m hm ↦ ElementType.size_pos (hmembers.of_mem hm).2
  refine (check_eq_ok_iff_apart hsize).2 ⟨fun m hm ↦ ⟨hfields m hm, ?_, ?_⟩, hplaced.apart⟩
  · exact (hmembers.of_mem hm).1
  · exact hplaced.size_eq ▸ stop_le_extent hm

/-! ### Layouts -/

/-- The compound type of the records of a layout. -/
def recordType (layout : RecordLayout) : ElementType :=
  .compound (.ofList layout.fields) layout.size

/-- A layout with an address has room for it. -/
theorem size_pos_of_hasVariableFields (h : layout.check = .ok ())
    (hvariable : layout.hasVariableFields = true) : 0 < layout.size := by
  obtain ⟨field, hfield, hvariable⟩ := List.any_eq_true.1 hvariable
  obtain ⟨htype, hoffset, hstop⟩ := (check_eq_ok_iff.1 h).1 field hfield
  have hsize : field.type.size = addressSize := by
    rw [eq_string_of_isVariable htype hvariable]
    rfl
  unfold Member.stop at hstop
  have haddress : 0 < addressSize := by decide
  omega

/-- The layout is accepted, and no string has a negative width. -/
structure Accepted (layout : RecordLayout) : Prop where
  /-- The check finds nothing. -/
  check : layout.check = .ok ()
  /-- Fixed strings have a width. -/
  width_nonneg : ∀ field ∈ layout.fields, ∀ width, field.type = .fixedString width → 0 ≤ width

theorem ofMembers_ofList (layout : RecordLayout) :
    ofMembers (.ofList layout.fields) layout.size = layout := by
  rw [ofMembers, Members.toList_ofList]

/-- A layout has a field with an address when its compound type holds one. -/
theorem hasVariableFields_ofMembers (members : Members) (size : Int) :
    (ofMembers members size).hasVariableFields = members.isVariable := by
  unfold hasVariableFields ofMembers
  cases members with
  | nil => rfl
  | cons name offset type rest =>
    have hrest := hasVariableFields_ofMembers rest size
    unfold hasVariableFields ofMembers at hrest
    rw [Members.toList, List.any_cons, hrest, Members.isVariable]

theorem hasVariableFields_eq (layout : RecordLayout) :
    layout.hasVariableFields = layout.recordType.isVariable := by
  rw [← congrArg hasVariableFields (ofMembers_ofList layout), hasVariableFields_ofMembers]
  rfl

namespace Accepted

variable {field : Member}

theorem isFieldType (h : layout.Accepted) (hmem : field ∈ layout.fields) :
    RecordLayout.isFieldType field.type = true :=
  isFieldType_of_check h.check field hmem

theorem laid_of_mem (h : layout.Accepted) (hmem : field ∈ layout.fields) : field.type.Laid := by
  have htype := h.isFieldType hmem
  have hwidth := h.width_nonneg field hmem
  match hfield : field.type, htype with
  | .number _, _ | .string, _ => trivial
  | .fixedString width, _ => exact hwidth width hfield

/-- Fields lie beside each other. -/
theorem apart (h : layout.Accepted) : layout.fields.Pairwise Member.Apart := by
  obtain ⟨_, hnone⟩ := check_eq_ok_iff.1 h.check
  have hspans : (layout.fields.map fieldSpan).Pairwise Span.Apart := by
    refine Span.pairwise_of_firstOverlap?_eq_none (fun span hspan ↦ ?_) hnone
    obtain ⟨field, hfield, rfl⟩ := List.mem_map.1 hspan
    have hsize := (h.laid_of_mem hfield).size_nonneg
    change field.offset ≤ field.offset + field.type.size
    omega
  exact (List.pairwise_map.1 hspans).imp id

/-- A record of an accepted layout has its fields inside it and beside each other. -/
theorem laid (h : layout.Accepted) (hsize : 0 ≤ layout.size) : layout.recordType.Laid := by
  refine ⟨Members.laid_iff.2 fun field hfield ↦ ?_, hsize, ?_, fun field hfield ↦ ?_⟩
  · rw [Members.toList_ofList] at hfield
    exact ⟨((check_eq_ok_iff.1 h.check).1 field hfield).2.1, h.laid_of_mem hfield⟩
  · rw [Members.toList_ofList]
    exact h.apart
  · rw [Members.toList_ofList] at hfield
    exact ((check_eq_ok_iff.1 h.check).1 field hfield).2.2

end Accepted

end RecordLayout

end Stowage
