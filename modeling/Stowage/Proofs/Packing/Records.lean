import Stowage.Proofs.Packing.Emission
import Stowage.Proofs.Record.Layout

/-!
# What packed records hold

A record is packed field by field into a buffer of zero bytes. Each field takes its own bytes and
leaves the others alone, so at the end every field holds what was packed into it, and the record
leads to the blocks that were added for its texts, in the order of the fields
(`RecordLayout.emits_pack`).
-/

set_option autoImplicit false

namespace Stowage

open Heap (overwrite)

namespace RecordLayout

/-! ### Fields -/

section Field

variable {name : String} {type : NumberType} {position width : Nat} {value : Value}
  {out result : Bytes}

/-- A number that can be stored is stored at its position. -/
theorem packNumber_eq_ok (hfits : position + type.size ≤ out.length) :
    packNumber name type position value out = .ok result ↔
      ∃ bytes, type.store (type.present value) = .ok bytes ∧
        result = overwrite position bytes out := by
  have hstored : packNumber name type position value out = .ok result ↔ (do
      let _ ← Buffer.wordBytes out position type.size
      let bytes ← type.store (type.present value)
      Buffer.storeWord out position bytes : Except Fault Bytes) = .ok result := by
    unfold packNumber
    dsimp only
    split
    · next hfault => simp [hfault]
    · exact .rfl
  rw [hstored, Buffer.wordBytes_eq hfits, Outcome.ok_bind, Outcome.bind_eq_ok]
  refine exists_congr fun bytes ↦ and_congr_right fun hstore ↦ ?_
  have hword : position + bytes.length ≤ out.length := by
    rw [NumberType.length_of_store hstore]
    exact hfits
  rw [Buffer.storeWord_eq hword, Except.ok.injEq]
  exact eq_comm

theorem length_fixedBytes {width : Int} (hwidth : 0 ≤ width) (bytes : Bytes) :
    (fixedBytes width bytes).length = width.toNat := by
  obtain ⟨count, rfl⟩ := Int.eq_ofNat_of_zero_le hwidth
  have hslice : Bytes.slice bytes 0 (count : Int) = bytes.take count := by
    have h := Bytes.slice_natCast bytes 0 count
    exact h
  rw [fixedBytes, Bytes.length_padTo, hslice, List.length_take, Int.toNat_natCast]
  omega

/-- A fixed string ends at the first zero byte of what fits, or where that ends. -/
theorem untilNul_fixedBytes {width : Int} (hwidth : 0 ≤ width) (bytes : Bytes) :
    Bytes.untilNul (fixedBytes width bytes) = Bytes.untilNul (bytes.take width.toNat) := by
  obtain ⟨count, rfl⟩ := Int.eq_ofNat_of_zero_le hwidth
  have hslice : Bytes.slice bytes 0 (count : Int) = bytes.take count := by
    have h := Bytes.slice_natCast bytes 0 count
    exact h
  rw [fixedBytes, hslice, Int.toNat_natCast, Bytes.padTo]
  rcases count - (bytes.take count).length with _ | more
  · rw [Bytes.zeros, List.replicate_zero, List.append_nil]
  · rw [Bytes.zeros, List.replicate_succ, Bytes.untilNul_append_zero]

/-- A fixed string is read back up to its first zero byte. -/
theorem textOf_fixedBytes {width : Int} (hwidth : 0 ≤ width) (bytes : Bytes) :
    textOf (fixedBytes width bytes) = textOf (bytes.take width.toNat) := by
  rw [textOf, textOf, untilNul_fixedBytes hwidth]

/-- The bytes that a value is stored as in a field without an address. -/
def inlineBytes? : ElementType → Value → Option Bytes
  | .number type, value => (type.store (type.present value)).toOption
  | .fixedString width, value => (textBytes? value).map (fixedBytes width)
  | _, _ => none

theorem length_of_inlineBytes? {type : ElementType} (htype : type.Laid) {bytes : Bytes}
    (h : inlineBytes? type value = some bytes) : bytes.length = type.width := by
  match type, htype with
  | .number type, _ => exact NumberType.length_of_store (Outcome.toOption_eq_some.1 h)
  | .fixedString width, hwidth =>
    obtain ⟨text, _, rfl⟩ := Option.map_eq_some_iff.1 h
    exact length_fixedBytes hwidth text

/-- The stored bytes stand for what becomes of the value. -/
theorem viewed_of_inlineBytes? {type : ElementType} (htype : type.Laid) {bytes : Bytes}
    (h : inlineBytes? type value = some bytes) :
    type.viewed (.inline bytes) = type.normalised value := by
  match type, htype with
  | .number type, _ => exact NumberType.load_store (Outcome.toOption_eq_some.1 h)
  | .fixedString width, hwidth =>
    obtain ⟨text, htext, rfl⟩ := Option.map_eq_some_iff.1 h
    rw [ElementType.viewed, ElementType.normalised, htext, textOf_fixedBytes hwidth]
    rfl

theorem contents?_of_inlineBytes? {type : ElementType} {bytes : Bytes}
    (h : inlineBytes? type value = some bytes) (heap : Heap) (new : Bytes) :
    type.contents? heap new = some (.inline new) := by
  match type, h with
  | .number _, _ | .fixedString _, _ => rfl

/-- A field without an address is packed when its value can be stored, and then takes its bytes. -/
theorem packField_inline_eq_ok {base : Nat} {field : Member} {attached : Bool}
    {before after : Ledger} (htype : field.type.Laid) (hfield : isFieldType field.type = true)
    (hinline : field.type.isVariable = false) (hoffset : 0 ≤ field.offset)
    (hfits : base + field.offset.toNat + field.type.width ≤ out.length) :
    (packField attached base field value out).run before = (.ok result, after) ↔
      after = before ∧ ∃ bytes, inlineBytes? field.type value = some bytes ∧
        result = overwrite (base + field.offset.toNat) bytes out := by
  have hposition : (base : Int) + field.offset = ((base + field.offset.toNat : Nat) : Int) := by
    omega
  obtain ⟨name, offset, type⟩ := field
  dsimp only at *
  unfold packField
  dsimp only
  rw [hposition]
  generalize base + offset.toNat = position at *
  match type, htype, hfield, hinline with
  | .number type, _, _, _ =>
    rw [Action.run_ofExcept_eq_ok, packNumber_eq_ok hfits]
    simp only [inlineBytes?, Outcome.toOption_eq_some]
  | .fixedString width, hwidth, _, _ =>
    have hsize : width = (width.toNat : Int) := (Int.toNat_of_nonneg hwidth).symm
    have hsplice (bytes : Bytes) :
        Bytes.splice out position ((position : Int) + width) (fixedBytes width bytes) =
          overwrite position (fixedBytes width bytes) out := by
      have h := Bytes.splice_eq_overwrite (length_fixedBytes hwidth bytes) hfits
      rwa [← hsize] at h
    rcases htext : textBytes? value with _ | bytes
    · simp [inlineBytes?, htext, Action.refuse, Action.run]
    · dsimp only
      rw [hsplice, Action.run_pure_eq_ok]
      simp only [inlineBytes?, htext, Option.map_some, Option.some.injEq, exists_eq_left']

/-- A packed field is stored at its position and holds what was packed. -/
theorem emitted_of_packField {base : Nat} {field : Member} {before after : Ledger}
    (hsound : before.heap.Sound) (htype : field.type.Laid)
    (hfield : isFieldType field.type = true) (hoffset : 0 ≤ field.offset)
    (hfits : base + field.offset.toNat + field.type.width ≤ out.length)
    (hrun : (packField true base field value out).run before = (.ok result, after)) :
    ∃ new added, result = overwrite (base + field.offset.toNat) new out ∧
      new.length = field.type.width ∧
      Emitted (fun heap ↦ field.type.contents? heap) (field.type.Shows [value]) before after added
        new := by
  by_cases hvariable : field.type.isVariable = true
  · have hposition : (base : Int) + field.offset = ((base + field.offset.toNat : Nat) : Int) := by
      omega
    obtain ⟨name, offset, type⟩ := field
    obtain rfl := eq_string_of_isVariable hfield hvariable
    dsimp only at *
    unfold packField at hrun
    dsimp only at hrun
    rw [hposition] at hrun
    split at hrun
    · exact absurd (Prod.mk.inj hrun).1 (by simp)
    · next bytes hbytes =>
      rw [if_pos rfl] at hrun
      obtain ⟨address, middle, hplace, hstore⟩ := Action.run_bind_eq_ok.1 hrun
      obtain ⟨hstored, rfl⟩ := Prod.mk.inj hstore
      rw [Buffer.storeWord_eq (by rw [Bytes.length_ofNat]; exact hfits)] at hstored
      obtain rfl := Except.ok.inj hstored
      exact ⟨_, _, rfl, Bytes.length_ofNat _ _, emitted_of_place_text hsound hbytes hplace⟩
  · obtain ⟨rfl, bytes, hbytes, rfl⟩ := (packField_inline_eq_ok htype hfield
      (Bool.eq_false_iff.2 hvariable) hoffset hfits).1 hrun
    refine ⟨bytes, [], rfl, length_of_inlineBytes? htype hbytes, .inline hsound ?_⟩
    exact ⟨[.inline bytes], fun heap ↦ contents?_of_inlineBytes? hbytes heap bytes,
      congrArg (· :: []) (viewed_of_inlineBytes? htype hbytes)⟩

end Field

/-! ### Records -/

/-- The packed fields of a record: what was packed at the fields, and the old bytes elsewhere. -/
structure PackedFields (members : Members) (values : List Value) (width : Nat)
    (before after : Ledger) (old new : Bytes) (added : List Nat) : Prop where
  /-- There are as many bytes as in a record. -/
  length_eq : new.length = width
  /-- The bytes beside the fields stay. -/
  beside : ∀ start count, (∀ m ∈ members.toList, start + count ≤ m.offset.toNat ∨
    m.offset.toNat + m.type.width ≤ start) → Bytes.cut new start count = Bytes.cut old start count
  /-- The fields hold what was packed into them. -/
  emitted : Emitted (fun heap ↦ members.contents? heap)
    (fun views ↦ members.viewed views = members.normalised values) before after added new

/-- Assumes: fields that lie inside the record beside each other, and as many values. The packed
fields take the place of the record. -/
theorem packFields_eq_ok (members : Members) {width : Nat} (hinside : members.Inside width)
    (hfields : ∀ m ∈ members.toList, isFieldType m.type = true) {base : Nat} {values : List Value}
    (hcount : values.length = members.toList.length) {out result : Bytes} {before after : Ledger}
    (hsound : before.heap.Sound) (hfits : base + width ≤ out.length)
    (hrun : (packFields true base members.toList values out).run before = (.ok result, after)) :
    ∃ new added, result = overwrite base new out ∧
      PackedFields members values width before after (Bytes.cut out base width) new added := by
  match members with
  | .nil =>
    obtain ⟨hresult, rfl⟩ := Prod.mk.inj hrun
    obtain rfl := Except.ok.inj hresult
    refine ⟨_, [], (Bytes.overwrite_cut hfits).symm, Bytes.length_cut hfits, fun _ _ _ ↦ rfl, ?_⟩
    exact .inline hsound ⟨[], fun _ ↦ rfl, rfl⟩
  | .cons name offset type rest =>
    obtain ⟨value, values, rfl⟩ := List.exists_cons_of_length_pos
      (hcount ▸ Nat.succ_pos rest.toList.length : 0 < values.length)
    have hmem : (⟨name, offset, type⟩ : Member) ∈ (Members.cons name offset type rest).toList :=
      List.mem_cons_self
    have hstop := hinside.stop_le _ hmem
    obtain ⟨hoffset, htype, _⟩ := hinside.laid
    dsimp only at hstop
    rw [Members.toList, packFields] at hrun
    obtain ⟨middle, between, hfirst, hrest⟩ := Action.run_bind_eq_ok.1 hrun
    obtain ⟨field, added, rfl, hlength, hemitted⟩ := emitted_of_packField hsound htype
      (hfields _ hmem) hoffset (by dsimp only; omega) hfirst
    dsimp only at hlength hemitted hrest
    have hold := Bytes.length_cut hfits
    have hfieldFits : base + offset.toNat + field.length ≤ out.length := by omega
    have hinner : offset.toNat + field.length ≤ (Bytes.cut out base width).length := by omega
    have houter := Bytes.length_overwrite hfieldFits
    obtain ⟨new, added', rfl, hpacked⟩ := packFields_eq_ok rest hinside.tail
      (fun m hm ↦ hfields m (List.mem_cons_of_mem _ hm)) (Nat.succ.inj hcount) hemitted.grown.sound
      (by rw [houter]; exact hfits) hrest
    rw [Bytes.cut_overwrite_around hfits (by omega)] at hpacked
    have hcovered := hpacked.length_eq
    refine ⟨new, added ++ added', ?_, hcovered, fun start count hbeside ↦ ?_, ?_⟩
    · exact Bytes.overwrite_overwrite_covered (by omega) (by omega) (by omega)
    · have hhead := hbeside _ hmem
      dsimp only at hhead
      rw [hpacked.beside start count fun m hm ↦ hbeside m (List.mem_cons_of_mem _ hm)]
      exact Bytes.cut_overwrite_outside hinner (by omega)
    · have hfield : Bytes.cut new offset.toNat type.width = field := by
        rw [hpacked.beside _ _ fun m hm ↦ hinside.head_apart hm, ← hlength]
        exact Bytes.cut_overwrite hinner
      refine hemitted.append hpacked.emitted type.contents?_grows fun a b ha hb hshows hviews ↦ ?_
      obtain ⟨view, hview, hviewed⟩ := hshows.eq_singleton
      refine ⟨Members.contents?_cons_eq_some.2 ⟨a, b, hfield ▸ ha, hb, rfl⟩, ?_⟩
      rw [Contents.views_append, hview, List.singleton_append, Members.viewed, Members.normalised,
        hviewed, hviews]

/-- Records after a first one are packed when it has a value for each field and is packed. -/
theorem packFrom_cons_eq_ok {layout : RecordLayout} {attached : Bool} {number : Nat}
    {record : Value} {rest : List Value} {out result : Bytes} {before after : Ledger} :
    (layout.packFrom attached number (record :: rest) out).run before = (.ok result, after) ↔
      ∃ values middle between, record.elements? = some values ∧
        values.length = layout.fields.length ∧
        (packFields attached (number * layout.size) layout.fields values out).run before =
          (.ok middle, between) ∧
        (layout.packFrom attached (number + 1) rest middle).run between = (.ok result, after) := by
  rw [packFrom]
  rcases record.elements? with _ | values
  · simp
  · by_cases hcount : values.length = layout.fields.length
    · dsimp only
      rw [if_neg (Decidable.not_not.2 hcount), Action.run_bind_eq_ok]
      constructor
      · rintro ⟨middle, between, hfirst, hrest⟩
        exact ⟨values, middle, between, rfl, hcount, hfirst, hrest⟩
      · rintro ⟨_, middle, between, hvalues, _, hfirst, hrest⟩
        obtain rfl := Option.some.inj hvalues
        exact ⟨middle, between, hfirst, hrest⟩
    · dsimp only
      rw [if_pos hcount]
      constructor
      · exact fun h ↦ absurd (Prod.mk.inj h).1 (by simp)
      · rintro ⟨_, _, _, hvalues, hlength, _⟩
        obtain rfl := Option.some.inj hvalues
        exact absurd hlength hcount

/-! ### Records without a heap -/

section Detached

variable {layout : RecordLayout} {base : Int} {out result : Bytes} {before after : Ledger}

/-- A field that is packed without a heap needs none. -/
theorem packField_of_detached {field : Member} {value : Value}
    (h : (packField false base field value out).run before = (.ok result, after)) :
    (packField true base field value out).run before = (.ok result, after) := by
  obtain ⟨name, offset, type⟩ := field
  unfold packField at h ⊢
  dsimp only at h ⊢
  split at h
  · exact h
  · split at h
    · exact absurd (Prod.mk.inj h).1 (by simp)
    · split at h
      · exact h
      · rw [if_neg (by simp)] at h
        exact absurd (Prod.mk.inj h).1 (by simp)

theorem packFields_of_detached {fields : List Member} {values : List Value}
    (h : (packFields false base fields values out).run before = (.ok result, after)) :
    (packFields true base fields values out).run before = (.ok result, after) := by
  induction fields generalizing values out before with
  | nil => exact h
  | cons field fields ih =>
    cases values with
    | nil => exact h
    | cons value values =>
      obtain ⟨middle, between, hfirst, hrest⟩ := Action.run_bind_eq_ok.1 h
      exact Action.run_bind_eq_ok.2 ⟨middle, between, packField_of_detached hfirst, ih hrest⟩

theorem packFrom_of_detached {number : Nat} {records : List Value}
    (h : (layout.packFrom false number records out).run before = (.ok result, after)) :
    (layout.packFrom true number records out).run before = (.ok result, after) := by
  induction records generalizing number out before with
  | nil => exact h
  | cons record rest ih =>
    obtain ⟨values, middle, between, hvalues, hcount, hfirst, hrest⟩ := packFrom_cons_eq_ok.1 h
    exact packFrom_cons_eq_ok.2
      ⟨values, middle, between, hvalues, hcount, packFields_of_detached hfirst, ih hrest⟩

/-- Records that are packed without a heap are packed in the same way with one. -/
theorem pack_of_detached {records : Value} {packed : Bytes × List Nat} {heap heap' : Heap}
    (h : (layout.pack false records).run heap = (.ok packed, heap')) :
    (layout.pack true records).run heap = (.ok packed, heap') := by
  unfold pack at h ⊢
  split at h
  · exact absurd (Prod.mk.inj h).1 (by simp)
  · next elements helements =>
    obtain ⟨zeros, middle, hzeros, hsettle⟩ := Action.run_bind_eq_ok.1 h
    have hrun := Ledger.run_settle_eq_ok hsettle
    exact Action.run_bind_eq_ok.2
      ⟨zeros, middle, hzeros, Ledger.run_settle_ok (packFrom_of_detached hrun)⟩

end Detached

section Records

variable {members : Members} {size : Int}

/-- Assumes: a compound that is laid out and has fields that can be packed. Packed records are
emitted. -/
theorem packFrom_eq_ok (hlaid : (ElementType.compound members size).Laid)
    (hfields : ∀ m ∈ members.toList, isFieldType m.type = true) {records : List Value}
    {number : Nat} {out result : Bytes} {before after : Ledger} (hsound : before.heap.Sound)
    (hfits : (number + records.length) * (ElementType.compound members size).width ≤ out.length)
    (hrun : (packFrom (.ofMembers members size) true number records out).run before =
      (.ok result, after)) :
    ∃ new added, result = overwrite (number * (ElementType.compound members size).width) new out ∧
      new.length = records.length * (ElementType.compound members size).width ∧
      Emitted (fun heap ↦ Contents.ofItems? ((ElementType.compound members size).contents? heap)
          (ElementType.compound members size).width records.length)
        ((ElementType.compound members size).Shows records) before after added new := by
  have hbase := hlaid.mul_size
  have hinside := hlaid.inside
  generalize hwidth : (ElementType.compound members size).width = width at *
  induction records generalizing number out before with
  | nil =>
    obtain ⟨hresult, rfl⟩ := Prod.mk.inj hrun
    obtain rfl := Except.ok.inj hresult
    refine ⟨[], [], ?_, (Nat.zero_mul _).symm, .inline hsound ⟨[], fun _ ↦ rfl, .nil _⟩⟩
    exact (Bytes.overwrite_nil _ _).symm
  | cons record rest ih =>
    have hnext : (number + 1 + rest.length) * width ≤ out.length := by
      rw [Nat.add_assoc, Nat.add_comm 1]
      exact hfits
    have hone : number * width + width ≤ out.length := by
      rw [← Nat.succ_mul]
      refine Nat.le_trans (Nat.mul_le_mul_right _ ?_) hnext
      omega
    obtain ⟨values, middle, between, hvalues, hcount, hfirst, hrest⟩ := packFrom_cons_eq_ok.1 hrun
    have hposition : (number : Int) * (RecordLayout.ofMembers members size).size =
        ((number * width : Nat) : Int) := hbase number
    rw [hposition] at hfirst
    obtain ⟨new, added, rfl, hpacked⟩ :=
      packFields_eq_ok members hinside hfields hcount hsound hone hfirst
    have hlength := hpacked.length_eq
    have hwritten : number * width + new.length ≤ out.length := by omega
    obtain ⟨others, added', rfl, hlengths, hemitted⟩ := ih hpacked.emitted.grown.sound hrest
      (by rw [Bytes.length_overwrite hwritten]; exact hnext)
    refine ⟨new ++ others, added ++ added', ?_, ?_, ?_⟩
    · have hbehind : (number + 1) * width = number * width + new.length := by
        rw [Nat.succ_mul, hlength]
      rw [hbehind]
      exact Bytes.overwrite_overwrite_next hwritten
    · rw [List.length_append, hlength, hlengths, List.length_cons, Nat.succ_mul, Nat.add_comm]
    · have hrecord : Emitted (fun heap ↦ (ElementType.compound members size).contents? heap)
          ((ElementType.compound members size).Shows [record]) before between added new := by
        refine hpacked.emitted.wrap fun contents hcontents hviews ↦ ?_
        refine ⟨_, ElementType.contents?_compound_eq_some.2 ⟨contents, hcontents, rfl⟩, rfl, ?_⟩
        refine congrArg (· :: []) ?_
        rw [ElementType.viewed, ElementType.normalised, Value.items_of_elements? hvalues, hviews]
      exact hrecord.cons hlength hemitted fun _ _ hshows hshows' ↦ hshows.append hshows'

/-- Assumes: a compound that is laid out and whose layout is accepted. A packed buffer of records is
emitted. -/
theorem emitsBuffer_pack (hlaid : (ElementType.compound members size).Laid)
    (hcheck : (RecordLayout.ofMembers members size).check = .ok ()) (records : Value) :
    EmitsBuffer (.compound members size) records.items.length
      ((ElementType.compound members size).Shows records.items)
      ((RecordLayout.ofMembers members size).pack true records) := by
  have hfields := isFieldType_of_check hcheck
  unfold pack
  split
  · exact emitsBuffer_refuse _
  · next elements helements =>
    rw [Value.items_of_elements? helements]
    refine emitsBuffer_ofExcept_bind fun out hout ↦ emitsBuffer_settle id ?_
    obtain ⟨_, _, rfl⟩ := Buffer.zeroed_eq_ok.1 hout
    have hsize : (elements.length : Int) * (RecordLayout.ofMembers members size).size =
        ((elements.length * (ElementType.compound members size).width : Nat) : Int) :=
      hlaid.mul_size elements.length
    rw [hsize, Int.toNat_natCast]
    intro before result after hsound hrun
    obtain ⟨new, added, rfl, hlength, hemitted⟩ := packFrom_eq_ok hlaid hfields hsound
      (by rw [Nat.zero_add, Bytes.length_zeros]) hrun
    rw [Nat.zero_mul, Bytes.overwrite_zero (hlength.trans (Bytes.length_zeros _).symm)]
    exact ⟨hlength, added, hemitted⟩

end Records

end RecordLayout

end Stowage
