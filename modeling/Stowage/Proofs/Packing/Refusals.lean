import Stowage.Proofs.Bytes
import Stowage.Registry
import Stowage.Sequence.Packing

/-!
# Refusals that do not come from the memory

Packing is refused for many reasons: a number that is not registered, a type of the wrong kind, a
value that does not fit. None of the steps that need no heap is refused for the reason that an
address does not refer to usable memory (`Outcome.NotMemory`). For the registry this is said of each
question that a catalogue answers, and of classifying a type by induction on the bound.
-/

set_option autoImplicit false

namespace Stowage

open Outcome (NotMemory)

/-! ### The registry -/

namespace Registry

variable (registry : Registry)

theorem notMemory_typeOf (id : Int) : NotMemory (registry.typeOf id) := by
  unfold typeOf
  split
  · simp
  · split <;> simp

theorem notMemory_pick {α : Type} (items : List α) (index : Int) :
    NotMemory (pick items index) := by
  unfold pick
  generalize (if index < 0 then items.length + index else index) = position
  dsimp only
  split
  · simp
  · split <;> simp

theorem notMemory_idOf (type : ElementType) : NotMemory (registry.idOf type) := by
  unfold idOf
  split <;> simp

theorem notMemory_elementOf (id : Int) : NotMemory (registry.elementOf id) := by
  refine (registry.notMemory_typeOf id).bind fun type ↦ ?_
  split
  · exact registry.notMemory_idOf _
  · exact registry.notMemory_idOf _
  · simp

theorem notMemory_dimensionsOf (id : Int) : NotMemory (registry.dimensionsOf id) := by
  refine (registry.notMemory_typeOf id).bind fun type ↦ ?_
  split <;> simp

theorem notMemory_memberCount (id : Int) : NotMemory (registry.memberCount id) := by
  refine (registry.notMemory_typeOf id).bind fun type ↦ ?_
  split <;> simp

theorem notMemory_memberName (id index : Int) : NotMemory (registry.memberName id index) := by
  refine (registry.notMemory_typeOf id).bind fun type ↦ ?_
  split
  · exact (notMemory_pick _ _).map _
  · exact (notMemory_pick _ _).map _
  · simp

theorem notMemory_member (id index : Int) : NotMemory (registry.member id index) := by
  refine (registry.notMemory_typeOf id).bind fun type ↦ ?_
  split
  · exact notMemory_pick _ _
  · simp

theorem notMemory_memberValue (id index : Int) : NotMemory (registry.memberValue id index) := by
  refine (registry.notMemory_typeOf id).bind fun type ↦ ?_
  split
  · exact (notMemory_pick _ _).map _
  · simp

theorem notMemory_classifyWithin (bound : Nat) (id : Int) :
    NotMemory (registry.catalogue.classifyWithin bound id) := by
  induction bound generalizing id with
  | zero => simp [Catalogue.classifyWithin]
  | succ bound ih =>
    refine ((registry.notMemory_typeOf id).map _).bind fun typeClass ↦ ?_
    refine ((registry.notMemory_typeOf id).map _).bind fun size ↦ ?_
    split
    · split <;> simp
    · split <;> simp
    · refine ((registry.notMemory_typeOf id).map _).bind fun stored ↦ ?_
      split <;> simp
    · refine (registry.notMemory_elementOf id).bind fun element ↦ ?_
      exact (ih element).bind fun _ ↦ Outcome.notMemory_ok _
    · refine (registry.notMemory_dimensionsOf id).bind fun dimensions ↦ ?_
      split
      · refine (registry.notMemory_elementOf id).bind fun element ↦ ?_
        exact (ih element).bind fun _ ↦ Outcome.notMemory_ok _
      · simp
    · simp
    · split
      · simp
      · refine (registry.notMemory_memberCount id).bind fun count ↦ ?_
        refine (NotMemory.mapM (fun i ↦ ?_) _).bind fun _ ↦ Outcome.notMemory_ok _
        exact (registry.notMemory_memberName id i).bind fun _ ↦
          (registry.notMemory_memberValue id i).bind fun _ ↦ Outcome.notMemory_ok _
    · refine (registry.notMemory_memberCount id).bind fun count ↦ ?_
      refine (NotMemory.mapM (fun i ↦ ?_) _).bind fun _ ↦ Outcome.notMemory_ok _
      refine (registry.notMemory_memberName id i).bind fun _ ↦ ?_
      refine ((registry.notMemory_member id i).map _).bind fun _ ↦ ?_
      refine ((registry.notMemory_member id i).bind fun member ↦
        registry.notMemory_idOf member.type).bind fun memberId ↦ ?_
      exact (ih memberId).bind fun _ ↦ Outcome.notMemory_ok _
    · simp

theorem notMemory_sequenceElement (id : Int) :
    NotMemory (registry.catalogue.sequenceElement id) := by
  refine (registry.notMemory_classifyWithin _ id).bind fun type ↦ ?_
  split <;> simp

theorem notMemory_arrayElement (id : Int) : NotMemory (registry.catalogue.arrayElement id) := by
  refine (registry.notMemory_classifyWithin _ id).bind fun type ↦ ?_
  split <;> simp

end Registry

/-! ### Numbers -/

namespace NumberType

theorem notMemory_store (type : NumberType) (value : Value) : NotMemory (type.store value) := by
  unfold store
  split
  · split <;> simp
  · split
    · split
      · simp
      · split <;> simp
    · simp
  · split
    · split <;> simp
    · simp

theorem notMemory_storeAll (type : NumberType) (values : List Value) :
    NotMemory (type.storeAll values) := by
  induction values with
  | nil => exact Outcome.notMemory_ok _
  | cons value rest ih =>
    have hfirst := type.notMemory_store value
    rw [storeAll]
    split
    · next h => exact h ▸ hfirst
    · split
      · next h => exact Outcome.notMemory_error_iff.2 (Outcome.notMemory_error_iff.1 (h ▸ ih))
      · simp

end NumberType

/-! ### Records -/

namespace RecordLayout

theorem notMemory_check (layout : RecordLayout) : NotMemory layout.check := by
  have hfields : NotMemory (layout.fields.forM (checkField layout.size)) := by
    refine NotMemory.forM (fun field ↦ ?_) _
    unfold checkField
    split
    · simp
    · split <;> simp
  unfold check
  split
  · next h => exact h ▸ hfields
  · split <;> simp

theorem notMemory_packNumber (name : String) (type : NumberType) (position : Int) (value : Value)
    (out : Bytes) : NotMemory (packNumber name type position value out) := by
  unfold packNumber
  dsimp only
  split
  · simp
  · exact (Buffer.notMemory_wordBytes _ _ _).bind fun _ ↦
      (type.notMemory_store _).bind fun _ ↦ Buffer.notMemory_storeWord _ _ _

end RecordLayout

/-! ### Sequences -/

namespace Sequence

theorem notMemory_textBytes (value : Value) : NotMemory (textBytes value) := by
  unfold textBytes
  split <;> simp

theorem notMemory_fixedPart (width : Int) (value : Value) : NotMemory (fixedPart width value) := by
  refine (notMemory_textBytes value).bind fun bytes ↦ ?_
  split
  · simp
  · exact Outcome.notMemory_ok _

theorem notMemory_resolveConstants (members : List (String × Int)) (values : List Value) :
    NotMemory (resolveConstants members values) := by
  induction values with
  | nil => exact Outcome.notMemory_ok _
  | cons value rest ih =>
    have hothers (value : Value) : NotMemory (do
        let others ← resolveConstants members rest
        Except.ok (value :: others)) := ih.bind fun _ ↦ Outcome.notMemory_ok _
    rw [resolveConstants.eq_def]
    dsimp only
    split
    · refine (NotMemory.map ?_ _).bind hothers
      unfold ElementType.valueOf
      split <;> simp
    · exact hothers _

theorem notMemory_encodeNumbers (typeName : String) (type : NumberType) (values : List Value) :
    NotMemory (encodeNumbers typeName type values) := by
  unfold encodeNumbers
  split
  · simp
  · exact type.notMemory_storeAll _

theorem notMemory_encodeReferences (width : Int) (values : List Value) :
    NotMemory (encodeReferences width values) := by
  unfold encodeReferences
  split <;> simp

end Sequence

end Stowage
