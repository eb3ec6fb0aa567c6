import Stowage.Proofs.Packing.Records
import Stowage.Proofs.Uniform

/-!
# Where packed values lie

Records of numbers and fixed strings are packed by position: every byte of the buffer belongs to the
field of the record that covers it, and holds a byte of that field's own value; bytes that no field
covers are zero (`RecordLayout.bytes_of_pack`). So the order in which the fields are listed does not
matter, and a change of one value stays inside its field.
-/

set_option autoImplicit false

namespace Stowage

open Heap (overwrite)

/-- The byte of a record with the index lies in the field. -/
def Member.Covers (field : Member) (index : Nat) : Prop :=
  field.offset ≤ index ∧ index < field.stop

instance (field : Member) : DecidablePred field.Covers :=
  fun index ↦ inferInstanceAs (Decidable (field.offset ≤ index ∧ index < field.stop))

namespace RecordLayout

/-- The byte with the index in a record of the given fields and values, if a field covers it. -/
def fieldByte? : List (Member × Value) → (index : Nat) → Option UInt8
  | [], _ => none
  | (field, value) :: rest, index =>
    if field.Covers index then
      (inlineBytes? field.type value).bind fun bytes ↦ bytes[index - field.offset.toNat]?
    else fieldByte? rest index

/-- The fields take their values without an address. -/
def Storable (pairs : List (Member × Value)) : Prop :=
  ∀ pair ∈ pairs, ∃ bytes, inlineBytes? pair.1.type pair.2 = some bytes

/-- The fields are numbers and fixed strings that lie in a record beside each other. -/
structure Inline (fields : List Member) (width : Nat) : Prop where
  /-- The fields can be packed. -/
  fieldType : ∀ field ∈ fields, isFieldType field.type = true
  /-- No field holds an address. -/
  inline : ∀ field ∈ fields, field.type.isVariable = false
  /-- The fields have a size. -/
  laid : ∀ field ∈ fields, field.type.Laid
  /-- The fields lie inside the record. -/
  bounds : ∀ field ∈ fields, 0 ≤ field.offset ∧ field.offset.toNat + field.type.width ≤ width
  /-- The fields lie beside each other. -/
  apart : fields.Pairwise Member.Apart

/-- The fields of an accepted layout without addresses. -/
theorem Accepted.inline {layout : RecordLayout} (h : layout.Accepted)
    (hinline : layout.hasVariableFields = false) : Inline layout.fields layout.size.toNat where
  fieldType := fun _ hfield ↦ h.isFieldType hfield
  inline := fun field hfield ↦ by
    have hnone := List.any_eq_false.1 hinline field hfield
    exact Bool.eq_false_iff.2 hnone
  laid := fun _ hfield ↦ h.laid_of_mem hfield
  bounds := fun field hfield ↦ by
    obtain ⟨_, hoffset, hstop⟩ := (check_eq_ok_iff.1 h.check).1 field hfield
    have hsize := (h.laid_of_mem hfield).size_eq_width
    unfold Member.stop at hstop
    exact ⟨hoffset, by omega⟩
  apart := h.apart

namespace Inline

variable {field : Member} {fields : List Member} {width index : Nat}

theorem tail (h : Inline (field :: fields) width) : Inline fields width where
  fieldType := fun f hf ↦ h.fieldType f (List.mem_cons_of_mem _ hf)
  inline := fun f hf ↦ h.inline f (List.mem_cons_of_mem _ hf)
  laid := fun f hf ↦ h.laid f (List.mem_cons_of_mem _ hf)
  bounds := fun f hf ↦ h.bounds f (List.mem_cons_of_mem _ hf)
  apart := (List.pairwise_cons.1 h.apart).2

/-- A byte that a field covers, in numbers of bytes. -/
theorem covers_iff (h : Inline fields width) (hfield : field ∈ fields) :
    field.Covers index ↔
      field.offset.toNat ≤ index ∧ index < field.offset.toNat + field.type.width := by
  obtain ⟨hoffset, _⟩ := h.bounds field hfield
  have hsize := (h.laid field hfield).size_eq_width
  unfold Member.Covers Member.stop
  omega

end Inline

/-! ### The byte of a field -/

section FieldByte

variable {fields : List Member} {width index : Nat} {values : List Value}

theorem fieldByte?_eq_none {pairs : List (Member × Value)}
    (h : ∀ pair ∈ pairs, ¬ pair.1.Covers index) : fieldByte? pairs index = none := by
  induction pairs with
  | nil => rfl
  | cons pair rest ih =>
    rw [fieldByte?, if_neg (h pair List.mem_cons_self)]
    exact ih fun p hp ↦ h p (List.mem_cons_of_mem _ hp)

/-- A byte that lies in no field. -/
theorem fieldByte?_zip_eq_none (h : ∀ field ∈ fields, ¬ field.Covers index) :
    fieldByte? (fields.zip values) index = none :=
  fieldByte?_eq_none fun pair hpair ↦ h pair.1 (List.of_mem_zip hpair).1

/-- At most one field covers a byte. -/
theorem Inline.eq_of_covers (h : Inline fields width) {pair other : Member × Value}
    (hpair : pair ∈ fields.zip values) (hother : other ∈ fields.zip values)
    (hcovers : pair.1.Covers index) (hcovers' : other.1.Covers index) : pair = other := by
  induction fields generalizing values with
  | nil => exact absurd hpair List.not_mem_nil
  | cons field fields ih =>
    cases values with
    | nil => exact absurd hpair List.not_mem_nil
    | cons value values =>
      have hbeside (p : Member × Value) (hp : p ∈ fields.zip values)
          (hp_covers : p.1.Covers index) : ¬ field.Covers index := by
        intro hfield
        have happart := (List.pairwise_cons.1 h.apart).1 p.1 (List.of_mem_zip hp).1
        unfold Member.Covers at hp_covers hfield
        unfold Member.Apart at happart
        omega
      rw [List.zip_cons_cons] at hpair hother
      rcases List.mem_cons.1 hpair with rfl | hpair <;>
        rcases List.mem_cons.1 hother with rfl | hother
      · rfl
      · exact absurd hcovers (hbeside other hother hcovers')
      · exact absurd hcovers' (hbeside pair hpair hcovers)
      · exact ih h.tail hpair hother

/-- A byte that a field covers is a byte of the value in that field. -/
theorem fieldByte?_of_covers (h : Inline fields width) {field : Member} {value : Value}
    (hpair : (field, value) ∈ fields.zip values) (hcovers : field.Covers index) :
    fieldByte? (fields.zip values) index =
      (inlineBytes? field.type value).bind fun bytes ↦ bytes[index - field.offset.toNat]? := by
  induction fields generalizing values with
  | nil => exact absurd hpair List.not_mem_nil
  | cons first fields ih =>
    cases values with
    | nil => exact absurd hpair List.not_mem_nil
    | cons other values =>
      rw [List.zip_cons_cons, fieldByte?]
      by_cases hfirst : first.Covers index
      · have hsame := h.eq_of_covers hpair List.mem_cons_self hcovers hfirst
        obtain ⟨rfl, rfl⟩ := Prod.mk.inj hsame
        rw [if_pos hfirst]
      · rw [if_neg hfirst]
        rw [List.zip_cons_cons] at hpair
        rcases List.mem_cons.1 hpair with hsame | hpair
        · obtain ⟨rfl, rfl⟩ := Prod.mk.inj hsame
          exact absurd hcovers hfirst
        · exact ih h.tail hpair

/-- Fields listed in another order, with their values, have the same bytes. -/
theorem fieldByte?_of_perm (h : Inline fields width) {others : List Member}
    (hothers : Inline others width) {values' : List Value}
    (hperm : (others.zip values').Perm (fields.zip values)) :
    fieldByte? (others.zip values') index = fieldByte? (fields.zip values) index := by
  by_cases hcovered : ∃ pair ∈ fields.zip values, pair.1.Covers index
  · obtain ⟨⟨field, value⟩, hpair, hcovers⟩ := hcovered
    rw [fieldByte?_of_covers h hpair hcovers,
      fieldByte?_of_covers hothers (hperm.mem_iff.2 hpair) hcovers]
  · have hnone : ∀ pair ∈ fields.zip values, ¬ pair.1.Covers index :=
      fun pair hpair hcovers ↦ hcovered ⟨pair, hpair, hcovers⟩
    rw [fieldByte?_eq_none hnone,
      fieldByte?_eq_none fun pair hpair ↦ hnone pair (hperm.mem_iff.1 hpair)]

/-- Another value in a field leaves the bytes outside of it. -/
theorem fieldByte?_set {position : Nat} {value : Value}
    (h : ∀ field, fields[position]? = some field → ¬ field.Covers index) :
    fieldByte? (fields.zip (values.set position value)) index =
      fieldByte? (fields.zip values) index := by
  induction fields generalizing values position with
  | nil => rfl
  | cons first fields ih =>
    cases values with
    | nil => rfl
    | cons other values =>
      cases position with
      | zero =>
        rw [List.set_cons_zero, List.zip_cons_cons, List.zip_cons_cons, fieldByte?, fieldByte?,
          if_neg (h first rfl), if_neg (h first rfl)]
      | succ position =>
        rw [List.set_cons_succ, List.zip_cons_cons, List.zip_cons_cons, fieldByte?, fieldByte?,
          ih h]

end FieldByte

/-! ### One record -/

section Record

variable {fields : List Member} {width base : Nat} {attached : Bool} {values : List Value}
  {out result : Bytes} {before after : Ledger}

/-- Packed fields take their own bytes of the record. -/
theorem fieldBytes_of_packFields (h : Inline fields width) (hcount : values.length = fields.length)
    (hfits : base + width ≤ out.length)
    (hrun : (packFields attached base fields values out).run before = (.ok result, after)) :
    after = before ∧ Storable (fields.zip values) ∧ ∃ new, result = overwrite base new out ∧
      new.length = width ∧ ∀ index, new[index]? =
        (fieldByte? (fields.zip values) index).or (Bytes.cut out base width)[index]? := by
  induction fields generalizing values out before with
  | nil =>
    obtain ⟨rfl, rfl⟩ := Action.run_pure_eq_ok.1 hrun
    refine ⟨rfl, fun _ hpair ↦ absurd hpair List.not_mem_nil, _, (Bytes.overwrite_cut hfits).symm,
      Bytes.length_cut hfits, fun index ↦ ?_⟩
    rfl
  | cons field fields ih =>
    obtain ⟨value, values, rfl⟩ := List.exists_cons_of_length_pos
      (hcount ▸ Nat.succ_pos fields.length : 0 < values.length)
    have hmem : field ∈ field :: fields := List.mem_cons_self
    obtain ⟨hoffset, hstop⟩ := h.bounds field hmem
    obtain ⟨middle, between, hfirst, hrest⟩ := Action.run_bind_eq_ok.1 hrun
    obtain ⟨rfl, bytes, hbytes, rfl⟩ := (packField_inline_eq_ok (h.laid field hmem)
      (h.fieldType field hmem) (h.inline field hmem) hoffset (by omega)).1 hfirst
    have hlength := length_of_inlineBytes? (h.laid field hmem) hbytes
    have hfieldFits : base + field.offset.toNat + bytes.length ≤ out.length := by omega
    have houter := Bytes.length_overwrite hfieldFits
    obtain ⟨rfl, hstorable, new, rfl, hnew, hnewBytes⟩ :=
      ih h.tail (Nat.succ.inj hcount) (by rw [houter]; exact hfits) hrest
    have hold := Bytes.length_cut hfits
    rw [Bytes.cut_overwrite_around hfits (by omega)] at hnewBytes
    refine ⟨rfl, fun pair hpair ↦ ?_, new, ?_, hnew, fun index ↦ ?_⟩
    · rw [List.zip_cons_cons] at hpair
      rcases List.mem_cons.1 hpair with rfl | hpair
      · exact ⟨bytes, hbytes⟩
      · exact hstorable pair hpair
    · exact Bytes.overwrite_overwrite_covered (by omega) (by omega) (by omega)
    · rw [hnewBytes index, List.zip_cons_cons, fieldByte?, hbytes, Option.bind_some]
      by_cases hcovers : field.Covers index
      · -- no later field covers the byte, so it is as this field left it
        obtain ⟨hstart, hinside⟩ := (h.covers_iff hmem).1 hcovers
        have hnone : fieldByte? (fields.zip values) index = none := by
          refine fieldByte?_zip_eq_none fun other hother hcovers' ↦ ?_
          have happart := (List.pairwise_cons.1 h.apart).1 other hother
          unfold Member.Covers at hcovers hcovers'
          unfold Member.Apart at happart
          omega
        rw [if_pos hcovers, hnone, Option.none_or,
          Bytes.getElem?_overwrite_inside (by omega) hstart (by omega),
          List.getElem?_eq_getElem (by omega)]
        rfl
      · rw [if_neg hcovers, Bytes.getElem?_overwrite_outside (by omega)]
        rw [h.covers_iff hmem] at hcovers
        omega

/-- Fields that take their values are packed. -/
theorem exists_packFields (h : Inline fields width) (hcount : values.length = fields.length)
    (hfits : base + width ≤ out.length) (hstorable : Storable (fields.zip values)) :
    ∃ result, (packFields attached base fields values out).run before = (.ok result, before) ∧
      result.length = out.length := by
  induction fields generalizing values out with
  | nil => exact ⟨out, rfl, rfl⟩
  | cons field fields ih =>
    obtain ⟨value, values, rfl⟩ := List.exists_cons_of_length_pos
      (hcount ▸ Nat.succ_pos fields.length : 0 < values.length)
    have hmem : field ∈ field :: fields := List.mem_cons_self
    obtain ⟨hoffset, hstop⟩ := h.bounds field hmem
    obtain ⟨bytes, hbytes⟩ := hstorable (field, value) List.mem_cons_self
    have hlength := length_of_inlineBytes? (h.laid field hmem) hbytes
    have hfirst : (packField attached base field value out).run before =
        (.ok (overwrite (base + field.offset.toNat) bytes out), before) :=
      (packField_inline_eq_ok (h.laid field hmem) (h.fieldType field hmem) (h.inline field hmem)
        hoffset (by omega)).2 ⟨rfl, bytes, hbytes, rfl⟩
    have houter : (overwrite (base + field.offset.toNat) bytes out).length = out.length :=
      Bytes.length_overwrite (by omega)
    obtain ⟨result, hrest, hsame⟩ := ih h.tail (Nat.succ.inj hcount)
      (by rw [houter]; exact hfits) fun pair hpair ↦ hstorable pair (List.mem_cons_of_mem _ hpair)
    exact ⟨result, Action.run_bind_eq_ok.2 ⟨_, before, hfirst, hrest⟩, hsame.trans houter⟩

end Record

/-! ### All records -/

section Records

variable {layout : RecordLayout} {attached : Bool} {records : Value}

/-- The record has a value for each field that the field can take. -/
def Takes (layout : RecordLayout) (record : Value) : Prop :=
  ∃ values, record.elements? = some values ∧ values.length = layout.fields.length ∧
    Storable (layout.fields.zip values)

/-- The byte with the index in a packed record: that of the field that covers it, and zero where no
field does. -/
def byteOf (layout : RecordLayout) (record : Value) (index : Nat) : UInt8 :=
  (fieldByte? (layout.fields.zip record.items) index).getD 0

/-- Assumes: zeros from the first packed record on. Packed records hold the bytes of their fields
and zeros between them. -/
theorem bytes_of_packFrom {width : Nat} (h : Inline layout.fields width)
    (hsize : layout.size = width) {elements : List Value} {number : Nat} {out result : Bytes}
    {before after : Ledger} (hfits : (number + elements.length) * width ≤ out.length)
    (hzero : ∀ index, number * width ≤ index → index < out.length → out[index]? = some 0)
    (hrun : (layout.packFrom attached number elements out).run before = (.ok result, after)) :
    after = before ∧ (∀ record ∈ elements, layout.Takes record) ∧
      ∃ new, result = overwrite (number * width) new out ∧
        new = elements.flatMap fun record ↦ (List.range width).map (layout.byteOf record) := by
  induction elements generalizing number out before with
  | nil =>
    obtain ⟨rfl, rfl⟩ := Action.run_pure_eq_ok.1 hrun
    exact ⟨rfl, fun _ hrecord ↦ absurd hrecord List.not_mem_nil, [],
      (Bytes.overwrite_nil _ _).symm, rfl⟩
  | cons record rest ih =>
    have hnext : (number + 1 + rest.length) * width ≤ out.length := by
      rw [Nat.add_assoc, Nat.add_comm 1]
      exact hfits
    have hone : number * width + width ≤ out.length := by
      rw [← Nat.succ_mul]
      refine Nat.le_trans (Nat.mul_le_mul_right _ ?_) hnext
      omega
    obtain ⟨values, middle, between, hvalues, hcount, hfirst, hrest⟩ := packFrom_cons_eq_ok.1 hrun
    have hposition : (number : Int) * layout.size = ((number * width : Nat) : Int) := by
      rw [hsize, Int.natCast_mul]
    rw [hposition] at hfirst
    obtain ⟨rfl, hstorable, new, rfl, hlength, hbytes⟩ :=
      fieldBytes_of_packFields h hcount hone hfirst
    have hwritten : number * width + new.length ≤ out.length := by omega
    have hbehind : (number + 1) * width = number * width + new.length := by
      rw [Nat.succ_mul, hlength]
    have houter := Bytes.length_overwrite hwritten
    have hzeros (index : Nat) (hstart : (number + 1) * width ≤ index)
        (hstop : index < (overwrite (number * width) new out).length) :
        (overwrite (number * width) new out)[index]? = some 0 := by
      rw [Bytes.getElem?_overwrite_outside hwritten (.inr (by omega))]
      exact hzero index (by omega) (by omega)
    obtain ⟨rfl, htakes, others, rfl, hothers⟩ := ih (by rw [houter]; exact hnext) hzeros hrest
    have hnew : new = (List.range width).map (layout.byteOf record) := by
      apply List.ext_getElem?
      intro index
      rw [hbytes index, List.getElem?_map, Bytes.getElem?_cut]
      by_cases hindex : index < width
      · rw [if_pos hindex, hzero _ (by omega) (by omega), List.getElem?_range hindex,
          Option.map_some, byteOf, Value.items_of_elements? hvalues]
        rcases fieldByte? (layout.fields.zip values) index with _ | byte <;> rfl
      · have hnone : fieldByte? (layout.fields.zip values) index = none := by
          refine fieldByte?_zip_eq_none fun field hfield hcovers ↦ ?_
          obtain ⟨_, hinside⟩ := (h.covers_iff hfield).1 hcovers
          have hstop := (h.bounds field hfield).2
          omega
        rw [if_neg hindex, hnone, List.getElem?_eq_none (by rw [List.length_range]; omega)]
        rfl
    refine ⟨rfl, fun other hother ↦ ?_, new ++ others, ?_, ?_⟩
    · rcases List.mem_cons.1 hother with rfl | hother
      · exact ⟨values, hvalues, hcount, hstorable⟩
      · exact htakes other hother
    · rw [hbehind]
      exact Bytes.overwrite_overwrite_next hwritten
    · rw [List.flatMap_cons, ← hnew, hothers]

/-- Records whose values the fields can take are packed. -/
theorem exists_packFrom {width : Nat} (h : Inline layout.fields width)
    (hsize : layout.size = width) {elements : List Value} {number : Nat} {out : Bytes}
    {before : Ledger} (hfits : (number + elements.length) * width ≤ out.length)
    (htakes : ∀ record ∈ elements, layout.Takes record) :
    ∃ result, (layout.packFrom attached number elements out).run before = (.ok result, before) := by
  induction elements generalizing number out with
  | nil => exact ⟨out, rfl⟩
  | cons record rest ih =>
    have hnext : (number + 1 + rest.length) * width ≤ out.length := by
      rw [Nat.add_assoc, Nat.add_comm 1]
      exact hfits
    have hone : number * width + width ≤ out.length := by
      rw [← Nat.succ_mul]
      refine Nat.le_trans (Nat.mul_le_mul_right _ ?_) hnext
      omega
    have hposition : (number : Int) * layout.size = ((number * width : Nat) : Int) := by
      rw [hsize, Int.natCast_mul]
    obtain ⟨values, hvalues, hcount, hstorable⟩ := htakes record List.mem_cons_self
    obtain ⟨middle, hfirst, hsame⟩ := exists_packFields h hcount hone hstorable
    obtain ⟨result, hrest⟩ := ih (by rw [hsame]; exact hnext)
      fun other hother ↦ htakes other (List.mem_cons_of_mem _ hother)
    rw [← hposition] at hfirst
    exact ⟨result, packFrom_cons_eq_ok.2
      ⟨values, middle, before, hvalues, hcount, hfirst, hrest⟩⟩

/-- The bytes of packed records. -/
def image (layout : RecordLayout) (elements : List Value) : Bytes :=
  elements.flatMap fun record ↦ (List.range layout.size.toNat).map (layout.byteOf record)

/-- Records are packed into zeros exactly when every field can take its value. -/
theorem packFrom_zeros_eq_ok_iff (h : layout.Accepted) (hinline : layout.hasVariableFields = false)
    {elements : List Value} (hpos : 0 ≤ elements.length * layout.size) {result : Bytes}
    {before after : Ledger} :
    (layout.packFrom attached 0 elements
      (Bytes.zeros (elements.length * layout.size).toNat)).run before = (.ok result, after) ↔
      (∀ record ∈ elements, layout.Takes record) ∧ after = before ∧
        result = layout.image elements := by
  rcases Int.lt_or_le layout.size 0 with hnegative | hnonneg
  · have hnone : elements.length = 0 := by
      by_contra hsome
      have hneg : (elements.length : Int) * layout.size < 0 :=
        Int.mul_neg_of_pos_of_neg (by omega) hnegative
      omega
    obtain rfl := List.length_eq_zero_iff.1 hnone
    rw [List.length_nil, Int.natCast_zero, Int.zero_mul, packFrom, Action.run_pure_eq_ok]
    simp [image, Bytes.zeros]
  · have hfields := h.inline hinline
    have hsize : layout.size = layout.size.toNat := (Int.toNat_of_nonneg hnonneg).symm
    have hlength : (elements.length * layout.size).toNat = elements.length * layout.size.toNat := by
      conv_lhs => rw [hsize, ← Int.natCast_mul, Int.toNat_natCast]
    rw [hlength]
    have hfits : (0 + elements.length) * layout.size.toNat ≤
        (Bytes.zeros (elements.length * layout.size.toNat)).length := by
      rw [Nat.zero_add, Bytes.length_zeros]
    have hzero (index : Nat) (_ : 0 * layout.size.toNat ≤ index)
        (hindex : index < (Bytes.zeros (elements.length * layout.size.toNat)).length) :
        (Bytes.zeros (elements.length * layout.size.toNat))[index]? = some 0 := by
      rw [Bytes.length_zeros] at hindex
      exact List.getElem?_replicate_of_lt hindex
    have hgranted {result : Bytes} {after : Ledger}
        (hrun : (layout.packFrom attached 0 elements
          (Bytes.zeros (elements.length * layout.size.toNat))).run before = (.ok result, after)) :
        (∀ record ∈ elements, layout.Takes record) ∧ after = before ∧
          result = layout.image elements := by
      obtain ⟨rfl, htakes, new, rfl, rfl⟩ := bytes_of_packFrom hfields hsize hfits hzero hrun
      refine ⟨htakes, rfl, ?_⟩
      rw [Nat.zero_mul, Bytes.overwrite_zero]
      · rfl
      · rw [length_flatMap_of_forall fun record _ ↦ by rw [List.length_map, List.length_range],
          Bytes.length_zeros]
    refine ⟨hgranted, ?_⟩
    rintro ⟨htakes, rfl, rfl⟩
    obtain ⟨result, hrun⟩ := exists_packFrom hfields hsize hfits htakes
    obtain ⟨_, _, rfl⟩ := hgranted hrun
    exact hrun

/-- Assumes: an accepted layout without addresses. Records are packed exactly when every field can
take its value and the buffer is not too large; then the heap stays, and the buffer is made of the
bytes of the fields and zeros. -/
theorem pack_eq_ok_iff (h : layout.Accepted) (hinline : layout.hasVariableFields = false)
    {heap packed : Heap} {out : Bytes} {addresses : List Nat} :
    (layout.pack attached records).run heap = (.ok (out, addresses), packed) ↔
      ∃ elements, records.elements? = some elements ∧
        (0 ≤ elements.length * layout.size ∧ elements.length * layout.size < Buffer.indexLimit) ∧
        (∀ record ∈ elements, layout.Takes record) ∧ packed = heap ∧ addresses = [] ∧
          out = layout.image elements := by
  unfold pack
  rcases helements : records.elements? with _ | elements
  · simp
  · dsimp only
    rw [Action.run_bind_eq_ok]
    constructor
    · rintro ⟨zeros, middle, hzeros, hsettle⟩
      obtain ⟨rfl, hzeroed⟩ := Action.run_ofExcept_eq_ok.1 hzeros
      obtain ⟨hpos, hlimit, rfl⟩ := Buffer.zeroed_eq_ok.1 hzeroed
      obtain ⟨htakes, hledger, rfl⟩ :=
        (packFrom_zeros_eq_ok_iff h hinline hpos).1 (Ledger.run_settle_eq_ok hsettle)
      obtain ⟨rfl, rfl⟩ := Ledger.mk.inj hledger
      exact ⟨elements, rfl, ⟨hpos, hlimit⟩, htakes, rfl, rfl, rfl⟩
    · rintro ⟨_, hsame, ⟨hpos, hlimit⟩, htakes, rfl, rfl, rfl⟩
      obtain rfl := Option.some.inj hsame
      have hrun : (layout.packFrom attached 0 elements
          (Bytes.zeros (elements.length * layout.size).toNat)).run ⟨packed, []⟩ =
            (.ok (layout.image elements), ⟨packed, []⟩) :=
        (packFrom_zeros_eq_ok_iff h hinline hpos).2 ⟨htakes, rfl, rfl⟩
      exact ⟨_, packed, Action.run_ofExcept_eq_ok.2
        ⟨rfl, Buffer.zeroed_eq_ok.2 ⟨hpos, hlimit, rfl⟩⟩, Ledger.run_settle_ok hrun⟩

/-- The bytes of packed records have the size of the records. -/
theorem length_image {elements : List Value} (hpos : 0 ≤ elements.length * layout.size) :
    ((layout.image elements).length : Int) = elements.length * layout.size := by
  have hlength : (layout.image elements).length = elements.length * layout.size.toNat :=
    length_flatMap_of_forall fun record _ ↦ by rw [List.length_map, List.length_range]
  rcases Int.lt_or_le layout.size 0 with hnegative | hnonneg
  · have hnone : elements.length = 0 := by
      by_contra hsome
      have hneg : (elements.length : Int) * layout.size < 0 :=
        Int.mul_neg_of_pos_of_neg (by omega) hnegative
      omega
    rw [hlength, hnone, Nat.zero_mul, Int.natCast_zero, Int.zero_mul]
  · rw [hlength, Int.natCast_mul, Int.toNat_of_nonneg hnonneg]

/-- A byte of the image belongs to one record. -/
theorem getElem?_image {elements : List Value} {number : Nat} {record : Value}
    (hrecord : elements[number]? = some record) {index : Nat} (hindex : index < layout.size.toNat) :
    (layout.image elements)[number * layout.size.toNat + index]? =
      some (layout.byteOf record index) := by
  have hpos : 0 < layout.size.toNat := by omega
  rw [image, getElem?_flatMap_of_forall
    (fun record _ ↦ by rw [List.length_map, List.length_range]) hpos]
  rw [Nat.mul_comm, Nat.mul_add_div hpos, Nat.div_eq_of_lt hindex, Nat.add_zero, hrecord,
    Nat.mul_add_mod, Nat.mod_eq_of_lt hindex, Option.bind_some, List.getElem?_map,
    List.getElem?_range hindex]
  rfl

end Records

/-! ### By position -/

section Positional

variable {layout : RecordLayout} {elements : List Value} {record : Value} {index : Nat}

/-- A byte that a field covers is a byte of what the field's own value is stored as. -/
theorem byteOf_of_covers (h : Inline layout.fields layout.size.toNat) (htakes : layout.Takes record)
    {position : Nat} {field : Member} (hfield : layout.fields[position]? = some field)
    (hcovers : field.Covers index) :
    ∃ value bytes, record.items[position]? = some value ∧
      inlineBytes? field.type value = some bytes ∧ bytes.length = field.type.width ∧
      some (layout.byteOf record index) = bytes[index - field.offset.toNat]? := by
  obtain ⟨values, hvalues, hcount, hstorable⟩ := htakes
  have hmem := List.mem_of_getElem? hfield
  obtain ⟨hposition, _⟩ := List.getElem?_eq_some_iff.1 hfield
  have hvalue : values[position]? = some values[position] :=
    List.getElem?_eq_getElem (hcount ▸ hposition)
  have hpair : (field, values[position]) ∈ layout.fields.zip values :=
    List.mem_of_getElem? (List.getElem?_zip_eq_some.2 ⟨hfield, hvalue⟩)
  obtain ⟨bytes, hbytes⟩ := hstorable _ hpair
  have hlength := length_of_inlineBytes? (h.laid field hmem) hbytes
  obtain ⟨hstart, hstop⟩ := (h.covers_iff hmem).1 hcovers
  refine ⟨_, bytes, Value.items_of_elements? hvalues ▸ hvalue, hbytes, hlength, ?_⟩
  rw [byteOf, Value.items_of_elements? hvalues, fieldByte?_of_covers h hpair hcovers, hbytes,
    Option.bind_some, List.getElem?_eq_getElem (by omega)]
  rfl

/-- The record lists the values of a record of another layout in the order of its own fields. -/
def Relists (layout other : RecordLayout) (record relisted : Value) : Prop :=
  ∃ values values', record.elements? = some values ∧ relisted.elements? = some values' ∧
    values'.length = other.fields.length ∧
      (other.fields.zip values').Perm (layout.fields.zip values)

/-- Records whose values are listed in another order have the same bytes. -/
theorem image_of_relists {other : RecordLayout} (h : Inline layout.fields layout.size.toNat)
    (hother : Inline other.fields layout.size.toNat) (hsize : other.size = layout.size)
    {relisted : List Value} (hrelists : List.Forall₂ (layout.Relists other) elements relisted) :
    other.image relisted = layout.image elements := by
  refine (flatMap_eq_flatMap_of_forall₂ (hrelists.imp fun record relisted hone ↦ ?_)).symm
  obtain ⟨values, values', hvalues, hvalues', _, hperm⟩ := hone
  rw [hsize]
  refine List.map_congr_left fun index _ ↦ ?_
  rw [byteOf, byteOf, Value.items_of_elements? hvalues, Value.items_of_elements? hvalues',
    fieldByte?_of_perm h hother hperm]

theorem Takes.of_relists {other : RecordLayout} {relisted : Value} (h : layout.Takes record)
    (hrelists : layout.Relists other record relisted) : other.Takes relisted := by
  obtain ⟨values, values', hvalues, hvalues', hcount, hperm⟩ := hrelists
  obtain ⟨taken, htaken, _, hstorable⟩ := h
  obtain rfl := Option.some.inj (hvalues.symm.trans htaken)
  exact ⟨values', hvalues', hcount, fun pair hpair ↦ hstorable pair (hperm.mem_iff.1 hpair)⟩

/-- Another value in one field of one record changes bytes of this field in this record only. -/
theorem image_set {number position : Nat} {changed value : Value}
    (hrecord : elements[number]? = some record)
    (hchanged : changed.elements? = some (record.items.set position value))
    (hdiffers : (layout.image (elements.set number changed))[index]? ≠
      (layout.image elements)[index]?) :
    ∃ field inner, layout.fields[position]? = some field ∧ field.Covers inner ∧
      index = number * layout.size.toNat + inner := by
  rcases Nat.eq_zero_or_pos layout.size.toNat with hzero | hpos
  · simp [image, hzero] at hdiffers
  · have hlength : ∀ records : List Value, ∀ record ∈ records,
        ((List.range layout.size.toNat).map (layout.byteOf record)).length = layout.size.toNat :=
      fun _ _ _ ↦ by rw [List.length_map, List.length_range]
    rw [image, image, getElem?_flatMap_of_forall (hlength _) hpos,
      getElem?_flatMap_of_forall (hlength _) hpos, List.getElem?_set] at hdiffers
    by_cases hsame : number = index / layout.size.toNat
    · have hlt := (List.getElem?_eq_some_iff.1 hrecord).1
      rw [if_pos hsame, if_pos hlt, ← hsame, hrecord, Option.bind_some, Option.bind_some,
        List.getElem?_map, List.getElem?_map] at hdiffers
      have hinner := Nat.mod_lt index hpos
      rw [List.getElem?_range hinner, Option.map_some, Option.map_some, byteOf, byteOf,
        Value.items_of_elements? hchanged] at hdiffers
      by_contra hnone
      refine hdiffers (congrArg (fun byte : Option UInt8 ↦ some (byte.getD 0))
        (fieldByte?_set fun field hfield hcovers ↦ hnone ⟨field, _, hfield, hcovers, ?_⟩))
      rw [hsame, Nat.mul_comm, Nat.div_add_mod]
    · rw [if_neg hsame] at hdiffers
      exact absurd rfl hdiffers

variable {attached : Bool} {records : Value} {heap packed : Heap} {out : Bytes}
  {addresses : List Nat}

/-- Assumes: an accepted layout of numbers and fixed strings of no negative width, and records that
were packed. The buffer has the size of the records. A byte that a field covers is the byte there of
what the value of that field in that record is stored as, and any other byte is zero. The same
buffer is packed when fields are listed in another order, with the values to match. When one value
of one record is another one, only bytes of this field in this record can differ. -/
theorem bytes_of_pack (h : layout.Accepted) (hinline : layout.hasVariableFields = false)
    (hrun : (layout.pack attached records).run heap = (.ok (out, addresses), packed)) :
    (out.length : Int) = records.items.length * layout.size ∧
    (∀ (number : Nat) record, records.items[number]? = some record →
      ∀ index < layout.size.toNat,
        (∀ (position : Nat) (field : Member),
          layout.fields[position]? = some field → field.Covers index →
            ∃ value bytes, record.items[position]? = some value ∧
              inlineBytes? field.type value = some bytes ∧ bytes.length = field.type.width ∧
              out[number * layout.size.toNat + index]? = bytes[index - field.offset.toNat]?) ∧
        ((∀ field ∈ layout.fields, ¬ field.Covers index) →
          out[number * layout.size.toNat + index]? = some 0)) ∧
    (∀ (other : RecordLayout) relisted elements, other.check = .ok () →
      other.size = layout.size → other.fields.Perm layout.fields →
      relisted.elements? = some elements →
      List.Forall₂ (layout.Relists other) records.items elements →
        ∀ attached heap, (other.pack attached relisted).run heap = (.ok (out, []), heap)) ∧
    ∀ (number position : Nat) record changed value revised revisedOut,
      records.items[number]? = some record →
      changed.elements? = some (record.items.set position value) →
      revised.elements? = some (records.items.set number changed) →
      (∃ attached heap addresses packed,
        (layout.pack attached revised).run heap = (.ok (revisedOut, addresses), packed)) →
        ∀ index : Nat, revisedOut[index]? ≠ out[index]? → ∃ field inner,
          layout.fields[position]? = some field ∧ field.Covers inner ∧
            index = number * layout.size.toNat + inner := by
  have hfields := h.inline hinline
  obtain ⟨elements, helements, hbounds, htakes, rfl, rfl, rfl⟩ := (pack_eq_ok_iff h hinline).1 hrun
  rw [Value.items_of_elements? helements]
  refine ⟨?_, fun number record hrecord index hindex ↦ ⟨fun position field hfield hcovers ↦ ?_,
    fun hnone ↦ ?_⟩, fun other relisted elements' hcheck hsize hperm hrelisted hrelists attached
      heap ↦ ?_, ?_⟩
  · exact length_image hbounds.1
  · rw [getElem?_image hrecord hindex]
    exact byteOf_of_covers hfields (htakes record (List.mem_of_getElem? hrecord)) hfield hcovers
  · rw [getElem?_image hrecord hindex, byteOf, fieldByte?_zip_eq_none hnone]
    rfl
  · have hother : other.Accepted :=
      ⟨hcheck, fun field hfield ↦ h.width_nonneg field (hperm.mem_iff.1 hfield)⟩
    have hinlineOther : other.hasVariableFields = false := by
      rw [hasVariableFields, hperm.any_eq]
      exact hinline
    have hotherFields := hother.inline hinlineOther
    rw [hsize] at hotherFields
    refine (pack_eq_ok_iff hother hinlineOther).2 ⟨elements', hrelisted, ?_,
      fun record hrecord ↦ ?_, rfl, rfl,
      (image_of_relists hfields hotherFields hsize hrelists).symm⟩
    · rw [hsize, ← hrelists.length_eq]
      exact hbounds
    · obtain ⟨original, horiginal, hone⟩ := Outcome.exists_mem_of_forall₂ hrelists hrecord
      exact (htakes original horiginal).of_relists hone
  · rintro number position record changed value revised revisedOut hrecord hchanged hrevised
      ⟨_, _, _, _, hrun'⟩ index hdiffers
    obtain ⟨_, hsame, _, _, _, _, rfl⟩ := (pack_eq_ok_iff h hinline).1 hrun'
    obtain rfl := Option.some.inj (hrevised.symm.trans hsame)
    exact image_set hrecord hchanged hdiffers

/-- Tags: a label of two bytes and, before it, a number, with gaps after both. -/
def tagLayout : RecordLayout :=
  ⟨[⟨"label", 4, .fixedString 2⟩, ⟨"n", 0, .number .int16⟩], 8⟩

/-- Tags with the number listed first. -/
def numberedTagLayout : RecordLayout :=
  ⟨[⟨"n", 0, .number .int16⟩, ⟨"label", 4, .fixedString 2⟩], 8⟩

/-- The label of the second tag starts at the fifth byte of its record, the tags are packed alike
when the number is listed first, and another label of the first tag changes only bytes of it. -/
theorem bytes_of_pack_tags :
    let tags := Value.list [.tuple [.text "abc", .int 7], .tuple [.text "d", .null]]
    let renamed := Value.list [.tuple [.text "x", .int 7], .tuple [.text "d", .null]]
    ∃ out renamedOut,
      (tagLayout.pack false tags).run (Heap.empty 0) = (.ok (out, []), Heap.empty 0) ∧
      (tagLayout.pack false renamed).run (Heap.empty 0) = (.ok (renamedOut, []), Heap.empty 0) ∧
      out.length = 16 ∧ out[12]? = some 100 ∧ out[14]? = some 0 ∧
      (numberedTagLayout.pack false (.list [.tuple [.int 7, .text "abc"],
        .tuple [.null, .text "d"]])).run (Heap.empty 0) = (.ok (out, []), Heap.empty 0) ∧
      ∀ index : Nat, renamedOut[index]? ≠ out[index]? → 4 ≤ index ∧ index < 6 := by
  have haccepted : tagLayout.Accepted := ⟨rfl, by simp [tagLayout]⟩
  intro tags renamed
  have hpack : (tagLayout.pack false tags).run (Heap.empty 0) =
      (.ok ([7, 0, 0, 0, 97, 98, 0, 0, 0, 0, 0, 0, 100, 0, 0, 0], []), Heap.empty 0) := rfl
  have hrenamed : (tagLayout.pack false renamed).run (Heap.empty 0) =
      (.ok ([7, 0, 0, 0, 120, 0, 0, 0, 0, 0, 0, 0, 100, 0, 0, 0], []), Heap.empty 0) := rfl
  obtain ⟨hlength, hbytes, horder, hframe⟩ := bytes_of_pack haccepted rfl hpack
  obtain ⟨hcovered, _⟩ := hbytes 1 _ rfl 4 (by decide)
  obtain ⟨_, _, hvalue, hstored, _, hbyte⟩ :=
    hcovered 0 ⟨"label", 4, .fixedString 2⟩ rfl (by decide)
  obtain rfl := Option.some.inj hvalue
  obtain rfl := Option.some.inj hstored
  obtain ⟨_, hgap⟩ := hbytes 1 _ rfl 6 (by decide)
  refine ⟨_, _, hpack, hrenamed, Int.ofNat_inj.1 hlength, hbyte, hgap (by decide),
    horder numberedTagLayout _ _ rfl rfl (.swap _ _ _) rfl ?_ false _, fun index hdiffers ↦ ?_⟩
  · exact .cons ⟨_, _, rfl, rfl, rfl, .swap _ _ _⟩ (.cons ⟨_, _, rfl, rfl, rfl, .swap _ _ _⟩ .nil)
  · obtain ⟨field, inner, hfield, hcovers, rfl⟩ := hframe 0 0 _ (.tuple [.text "x", .int 7])
      (.text "x") renamed _ rfl rfl rfl ⟨_, _, _, _, hrenamed⟩ index hdiffers
    obtain rfl := Option.some.inj hfield
    have hinside : 4 ≤ (inner : Int) ∧ (inner : Int) < 6 := hcovers
    omega

end Positional

end RecordLayout

end Stowage
