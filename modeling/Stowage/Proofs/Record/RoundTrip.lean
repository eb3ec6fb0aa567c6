import Stowage.Proofs.Record.Reading

/-!
# Packed records are read back

Records that were packed are read back from their buffer, each as a tuple with what becomes of its
values (`RecordLayout.unpack_of_pack`). The fields may be listed in any order and may leave gaps. A
field is never written over by another one, and the address of a text leads to its own text at the
end, whatever was allocated after it.
-/

set_option autoImplicit false

namespace Stowage.RecordLayout

variable {layout : RecordLayout} {records : Value}

/-- What becomes of a record that is packed and read back, field by field. -/
def kept (layout : RecordLayout) (record : Value) : Value :=
  .tuple (List.zipWith (fun field value ↦ field.type.normalised value) layout.fields record.items)

theorem normalised_ofList (fields : List Member) (values : List Value) :
    (Members.ofList fields).normalised values =
      List.zipWith (fun field value ↦ field.type.normalised value) fields values := by
  induction fields generalizing values with
  | nil => rfl
  | cons field fields ih =>
    cases values with
    | nil => rfl
    | cons value values => exact congrArg (field.type.normalised value :: ·) (ih values)

theorem normalised_recordType (layout : RecordLayout) (record : Value) :
    layout.recordType.normalised record = layout.kept record :=
  congrArg Value.tuple (normalised_ofList layout.fields record.items)

/-- Packing starts from a buffer of zeros; without a size there are no records. -/
theorem zeroed_of_pack {attached : Bool} {heap packed : Heap} {result : Bytes × List Nat}
    (hrun : (layout.pack attached records).run heap = (.ok result, packed)) :
    (∃ zeros, Buffer.zeroed (records.items.length * layout.size) = .ok zeros) ∧
      (layout.size < 0 → records.items = [] ∧ result.1 = []) := by
  unfold pack at hrun
  split at hrun
  · exact absurd (Prod.mk.inj hrun).1 (by simp)
  · next elements helements =>
    obtain ⟨out, middle, hout, hsettle⟩ := Action.run_bind_eq_ok.1 hrun
    obtain ⟨_, hzeroed⟩ := Action.run_ofExcept_eq_ok.1 hout
    rw [Value.items_of_elements? helements]
    refine ⟨⟨out, hzeroed⟩, fun hsize ↦ ?_⟩
    obtain ⟨hpos, _, rfl⟩ := Buffer.zeroed_eq_ok.1 hzeroed
    have hnone : elements.length = 0 := by
      by_contra hsome
      have hneg : (elements.length : Int) * layout.size < 0 :=
        Int.mul_neg_of_pos_of_neg (by omega) hsize
      omega
    obtain rfl := List.length_eq_zero_iff.1 hnone
    obtain ⟨hresult, _⟩ := Prod.mk.inj (Ledger.run_settle_eq_ok hsettle)
    refine ⟨rfl, (Except.ok.inj hresult).symm.trans ?_⟩
    rw [List.length_nil, Int.natCast_zero, Int.zero_mul]
    rfl

namespace Accepted

/-- Packed records of an accepted layout are emitted. -/
theorem emitsBuffer_pack (h : layout.Accepted) (hsize : 0 ≤ layout.size) (records : Value) :
    EmitsBuffer layout.recordType records.items.length (layout.recordType.Shows records.items)
      (layout.pack true records) := by
  have hemits := RecordLayout.emitsBuffer_pack (h.laid hsize)
    (by rw [ofMembers_ofList]; exact h.check) records
  rwa [ofMembers_ofList] at hemits

/-- Assumes: contents of a buffer of records of an accepted layout. They are read as the values that
their views stand for. -/
theorem unpack_of_contents (h : layout.Accepted) (hsize : 0 ≤ layout.size) {heap : Heap}
    {heap? : Option Heap} (hheap : layout.hasVariableFields = true → heap? = some heap)
    {buffer : Bytes} {count : Nat} (hlength : buffer.length = count * layout.recordType.width)
    {contents : Contents}
    (hcontents : Contents.ofItems? (layout.recordType.contents? heap) layout.recordType.width count
      buffer = some contents) :
    layout.unpack heap? buffer count = .ok (contents.views.map layout.recordType.viewed) := by
  have hunpack := RecordLayout.unpack_of_contents heap? (h.laid hsize)
    (fun m hm ↦ h.isFieldType (by rwa [Members.toList_ofList] at hm))
    (by rwa [hasVariableFields_eq] at hheap) hlength hcontents
  rwa [ofMembers_ofList] at hunpack

end Accepted

variable {heap packed : Heap} {buffer : Bytes} {addresses : List Nat}

/-- A packed buffer is as long as the zeros that it started from. -/
theorem zeroed_length_of_pack (h : layout.Accepted) (hsound : heap.Sound)
    (hrun : (layout.pack true records).run heap = (.ok (buffer, addresses), packed)) :
    Buffer.zeroed (records.items.length * layout.size) = .ok (Bytes.zeros buffer.length) := by
  obtain ⟨⟨zeros, hzeroed⟩, hnegative⟩ := zeroed_of_pack hrun
  obtain ⟨_, _, rfl⟩ := Buffer.zeroed_eq_ok.1 hzeroed
  rw [hzeroed]
  refine congrArg (fun length ↦ Except.ok (Bytes.zeros length)) ?_
  by_cases hsize : layout.size < 0
  · obtain ⟨hnone, rfl⟩ := hnegative hsize
    rw [hnone]
    simp
  · obtain ⟨hlength, _⟩ :=
      h.emitsBuffer_pack (by omega) records heap buffer addresses packed hsound hrun
    have hmul := (h.laid (by omega)).mul_size records.items.length
    rw [hlength, ← Int.toNat_natCast (_ * layout.recordType.width), ← hmul]
    rfl

/-- Assumes: an accepted layout, a heap if some field is a text without a fixed width, and records
that were packed. Reading so many records back gives for each of them the tuple of what becomes of
its values. -/
theorem unpack_of_pack (h : layout.Accepted) {attached : Bool}
    (hattached : layout.hasVariableFields = true → attached = true) (hsound : heap.Sound)
    (hrun : (layout.pack attached records).run heap = (.ok (buffer, addresses), packed)) :
    layout.unpack (if attached then some packed else none) buffer records.items.length =
      .ok (records.items.map layout.kept) := by
  by_cases hsize : layout.size < 0
  · obtain ⟨hnone, rfl⟩ := (zeroed_of_pack hrun).2 hsize
    rw [hnone, unpack, if_neg (by simp)]
    rfl
  · have hwith : (layout.pack true records).run heap = (.ok (buffer, addresses), packed) := by
      cases attached with
      | true => exact hrun
      | false => exact pack_of_detached hrun
    obtain ⟨hlength, hemitted⟩ :=
      h.emitsBuffer_pack (by omega) records heap buffer addresses packed hsound hwith
    obtain ⟨contents, hcontents, _, hshows⟩ := hemitted.contents
    have hheap (hvariable : layout.hasVariableFields = true) :
        (if attached then some packed else none) = some packed := if_pos (hattached hvariable)
    rw [h.unpack_of_contents (by omega) hheap hlength hcontents, hshows]
    exact congrArg _ (List.map_congr_left fun record _ ↦ layout.normalised_recordType record)

end Stowage.RecordLayout
