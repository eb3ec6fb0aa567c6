import Stowage.Proofs.Packing.Records
import Stowage.Proofs.Payloads.Positions

/-!
# What is read from stored records

A record is read field by field. Where the contents of a buffer of records are known, the values
that are read are those that its views stand for (`RecordLayout.unpack_of_contents`). A heap is
needed only when some field holds an address.

From any other bytes records are read in full or refused with a fault of the codecs, whatever the
layout is (`RecordLayout.check_okOr`, `RecordLayout.unpack_okOr`).
-/

set_option autoImplicit false

namespace Stowage

/-- The bytes between two positions of a buffer. -/
theorem Bytes.slice_eq_cut (bytes : Bytes) {start stop : Int} {position count : Nat}
    (hstart : start = position) (hstop : stop = (position + count : Nat)) :
    Bytes.slice bytes start stop = Bytes.cut bytes position count := by
  rw [hstart, hstop, Bytes.slice_natCast, Bytes.cut, List.drop_take, Nat.add_sub_cancel_left]

namespace RecordLayout

variable {heap : Heap} {heap? : Option Heap} {buffer : Bytes}

/-- A field is read as the value that its view stands for. -/
theorem unpackField_of_looksLike (field : Member) {base : Nat} {view : View}
    (htype : field.type.Laid) (hfield : isFieldType field.type = true)
    (hoffset : 0 ≤ field.offset)
    (hfits : base + field.offset.toNat + field.type.width ≤ buffer.length)
    (hheap : field.type.isVariable = true → heap? = some heap)
    (hlooks : field.type.LooksLike heap
      (Bytes.cut buffer (base + field.offset.toNat) field.type.width) view) :
    unpackField heap? buffer base field = .ok (field.type.viewed view) := by
  have hposition : (base : Int) + field.offset = ((base + field.offset.toNat : Nat) : Int) := by
    omega
  obtain ⟨name, offset, type⟩ := field
  dsimp only at *
  unfold unpackField
  dsimp only
  rw [hposition]
  generalize base + offset.toNat = position at *
  match type, htype, hfield with
  | .number type, _, _ =>
    obtain rfl := hlooks.contents_inj rfl
    rw [ElementType.width_number] at hfits
    dsimp only
    rw [Buffer.wordBytes_eq hfits]
    rfl
  | .fixedString width, hwidth, _ =>
    obtain rfl := hlooks.contents_inj rfl
    have hstop : (position : Int) + width =
        ((position + (ElementType.fixedString width).width : Nat) : Int) := by
      rw [Int.natCast_add, ← ElementType.Laid.size_eq_width hwidth]
      rfl
    dsimp only
    rw [Bytes.slice_eq_cut buffer rfl hstop]
    rfl
  | .string, _, _ =>
    rw [ElementType.width_string] at hfits hlooks
    dsimp only
    rw [Buffer.loadWord_eq hfits, Outcome.ok_bind]
    rcases hlooks.of_string with ⟨hnull, rfl⟩ | ⟨hnull, text, hread, rfl⟩
    · rw [if_pos hnull]
      rfl
    · rw [if_neg hnull, hheap rfl]
      dsimp only
      rw [hread]
      rfl

/-- The fields of a record are read as the values that its members stand for. -/
theorem mapM_unpackField (members : Members) {width : Nat} (hinside : members.Inside width)
    (hfields : ∀ m ∈ members.toList, isFieldType m.type = true)
    (hheap : members.isVariable = true → heap? = some heap) {base : Nat}
    (hfits : base + width ≤ buffer.length) {contents : Contents}
    (hcontents : members.contents? heap (Bytes.cut buffer base width) = some contents) :
    members.toList.mapM (unpackField heap? buffer base) =
      .ok (members.viewed contents.views) := by
  match members with
  | .nil =>
    obtain rfl := Option.some.inj hcontents
    rfl
  | .cons name offset type rest =>
    obtain ⟨first, others, hfirst, hothers, rfl⟩ := Members.contents?_cons_eq_some.1 hcontents
    obtain ⟨view, hview, hlooks⟩ := ElementType.looksLike_of_contents? hfirst
    obtain ⟨hoffset, htype, _⟩ := hinside.laid
    have hstop : offset.toNat + type.width ≤ width :=
      hinside.stop_le ⟨name, offset, type⟩ List.mem_cons_self
    have hvariable : type.isVariable || rest.isVariable → heap? = some heap := hheap
    rw [Bool.or_eq_true] at hvariable
    rw [Bytes.cut_cut buffer hstop] at hlooks
    have hfieldFits : base + offset.toNat + type.width ≤ buffer.length := by omega
    have hhead := unpackField_of_looksLike ⟨name, offset, type⟩ htype
      (hfields ⟨name, offset, type⟩ List.mem_cons_self) hoffset hfieldFits
      (fun h ↦ hvariable (.inl h)) hlooks
    have hrest := mapM_unpackField rest hinside.tail
      (fun m hm ↦ hfields m (List.mem_cons_of_mem _ hm)) (fun h ↦ hvariable (.inr h)) hfits hothers
    rw [Members.toList, Outcome.mapM_cons_ok, hhead, Outcome.ok_bind, hrest, Outcome.ok_bind,
      Contents.views_append, hview]
    rfl

/-- Records are read one at each position. -/
theorem unpackFrom_eq_mapM (layout : RecordLayout) (number count : Nat) :
    layout.unpackFrom heap? buffer number count = (List.range' number count).mapM fun (k : Nat) ↦
      (layout.fields.mapM (unpackField heap? buffer (k * layout.size))).map Value.tuple := by
  induction count generalizing number with
  | zero => rfl
  | succ count ih =>
    rw [unpackFrom, ih, List.range'_succ, Outcome.mapM_cons_ok]
    rcases layout.fields.mapM (unpackField heap? buffer (number * layout.size)) with _ | values <;>
      rfl

/-- Assumes: a compound of numbers and strings that is laid out, and the contents of a buffer of
such records. The records are read as the values that their views stand for. -/
theorem unpack_of_contents (heap? : Option Heap) {members : Members} {size : Int}
    (h : (ElementType.compound members size).Laid)
    (hfields : ∀ m ∈ members.toList, isFieldType m.type = true)
    (hheap : members.isVariable = true → heap? = some heap) {count : Nat}
    (hlength : buffer.length = count * (ElementType.compound members size).width)
    {contents : Contents}
    (hcontents : Contents.ofItems? ((ElementType.compound members size).contents? heap)
      (ElementType.compound members size).width count buffer = some contents) :
    (ofMembers members size).unpack heap? buffer count =
      .ok (contents.views.map (ElementType.compound members size).viewed) := by
  have hsize (k : Nat) : (k : Int) * (ofMembers members size).size =
      ((k * (ElementType.compound members size).width : Nat) : Int) := h.mul_size k
  have hall := ElementType.looksLikeAt_of_contentsEach? hlength hcontents
  rw [unpack, if_neg, Int.toNat_natCast, unpackFrom_eq_mapM, Outcome.mapM_eq_ok_iff]
  · refine List.forall₂_map_right_iff.2 (hall.imp fun k view hlooks ↦ ?_)
    obtain ⟨items, hitems, rfl⟩ := hlooks.looksLike.of_compound
    rw [hsize, ofMembers, mapM_unpackField members h.inside hfields hheap hlooks.stop_le hitems]
    rfl
  · rw [hsize, ← hlength]
    omega

/-! ### Any layout and any bytes -/

/-- A layout is accepted, and admits its fields, or refused with a fault of the codecs. -/
theorem check_okOr (layout : RecordLayout) :
    Outcome.OkOr Fault.isMarshalling (fun _ ↦ ∀ field ∈ layout.fields, layout.Admits field)
      layout.check := by
  have hone (field : Member) : Outcome.OkOr Fault.isMarshalling (fun _ ↦ layout.Admits field)
      (checkField layout.size field) := by
    unfold checkField
    by_cases htype : isFieldType field.type = true
    · rw [htype, Bool.not_true, if_neg Bool.false_ne_true]
      split
      · rfl
      · exact ⟨htype, by omega, by omega⟩
    · rw [Bool.not_eq_true] at htype
      rw [htype, Bool.not_false, if_pos rfl]
      rfl
  have hall := Outcome.OkOr.forM fun field (_ : field ∈ layout.fields) ↦ hone field
  unfold check
  generalize layout.fields.forM (checkField layout.size) = outcome at hall
  cases outcome with
  | error fault => exact hall
  | ok u =>
    dsimp only
    split
    · rfl
    · exact hall

/-- A word that a field of an accepted layout takes up lies inside a buffer of enough records. -/
theorem Admits.exists_position {layout : RecordLayout} {field : Member}
    (h : layout.Admits field) {width : Nat} (hwidth : field.type.size = width) (hpos : 0 < width)
    {count : Int} (hlength : count * layout.size ≤ buffer.length) {k : Nat}
    (hk : (k : Int) < count) :
    ∃ position : Nat, k * layout.size + field.offset = position ∧
      position + width ≤ buffer.length := by
  obtain ⟨_, hoffset, hstop⟩ := h
  have hend : field.offset + width ≤ layout.size := hwidth ▸ hstop
  have hsize : 0 ≤ layout.size := by omega
  have hstart : 0 ≤ k * layout.size := Int.mul_nonneg (Int.natCast_nonneg k) hsize
  have hnext : (k + 1) * layout.size ≤ count * layout.size :=
    Int.mul_le_mul_of_nonneg_right hk hsize
  rw [Int.add_mul, Int.one_mul] at hnext
  refine ⟨(k * layout.size + field.offset).toNat, ?_, ?_⟩
  · omega
  · omega

/-- Reading a field of an accepted layout is refused by nothing but the codecs. -/
theorem unpackField_okOr (heap? : Option Heap) {layout : RecordLayout} {field : Member}
    (h : layout.Admits field) {count : Int} (hlength : count * layout.size ≤ buffer.length)
    {k : Nat} (hk : (k : Int) < count) :
    Outcome.OkOr Fault.isMarshalling (fun _ ↦ True)
      (unpackField heap? buffer (k * layout.size) field) := by
  obtain ⟨name, offset, type⟩ := field
  unfold unpackField
  match type, h.1 with
  | .number type, _ =>
    obtain ⟨position, heq, hfits⟩ :=
      h.exists_position rfl type.size_pos hlength hk
    dsimp only at heq ⊢
    rw [heq, Buffer.wordBytes_eq hfits]
    trivial
  | .fixedString width, _ => trivial
  | .string, _ =>
    obtain ⟨position, heq, hfits⟩ :=
      h.exists_position rfl (by decide : 0 < addressSize) hlength hk
    dsimp only at heq ⊢
    rw [heq, Buffer.loadWord_eq hfits, Outcome.ok_bind]
    generalize Bytes.toNat (Bytes.cut buffer position addressSize) = address
    split
    · trivial
    · cases heap? with
      | none => rfl
      | some heap =>
        dsimp only
        rcases hread : heap.readString address with fault | bytes
        · obtain ⟨cause, rfl⟩ := Heap.readString_error hread
          trivial
        · trivial

/-- Reading `count` records of an accepted layout gives so many or is refused with a fault of the
codecs. -/
theorem unpack_okOr (heap? : Option Heap) {layout : RecordLayout}
    (h : ∀ field ∈ layout.fields, layout.Admits field) (buffer : Bytes) (count : Int) :
    Outcome.OkOr Fault.isMarshalling (fun records ↦ records.length = count.toNat)
      (layout.unpack heap? buffer count) := by
  unfold unpack
  split
  · rfl
  · next hshort =>
    have hrecord (k : Nat) (hk : k ∈ List.range' 0 count.toNat) :
        Outcome.OkOr Fault.isMarshalling (fun _ ↦ True)
          ((layout.fields.mapM (unpackField heap? buffer (k * layout.size))).map Value.tuple) := by
      have hlt : (k : Int) < count := by
        have hrange := List.mem_range'_1.1 hk
        omega
      have hfields := Outcome.OkOr.mapM fun field hfield ↦
        unpackField_okOr heap? (h field hfield) (Int.not_lt.1 hshort) hlt
      exact hfields.map Value.tuple fun _ _ ↦ trivial
    have hall : Outcome.OkOr Fault.isMarshalling (List.Forall₂ (fun _ _ ↦ True) _) _ :=
      Outcome.OkOr.mapM hrecord
    rw [unpackFrom_eq_mapM]
    exact hall.imp (fun _ hfault ↦ hfault) fun records hrecords ↦ by
      rw [← hrecords.length_eq, List.length_range']

end RecordLayout

end Stowage
