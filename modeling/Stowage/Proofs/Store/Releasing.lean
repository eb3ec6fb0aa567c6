import Stowage.Proofs.Packing.Records
import Stowage.Proofs.Packing.Sequences
import Stowage.Proofs.Payloads.Partial
import Stowage.Proofs.Store.Lending

/-!
# What writers leave live

A writer of strings or records packs its values into a buffer, hands the buffer to the dataset, and
then reclaims the buffer, whatever became of the write. Reclaiming follows the buffer with the type
that the caller named, and nothing has compared this type with what was packed. So the packed blocks
are freed when the type leads to them, in particular when it is the type of what was packed, whether
or not the dataset has it. When the number stands for no type, or for a type without addresses, the
buffer is not followed at all, and all packed blocks stay live (`write_keeps_balance`).
-/

set_option autoImplicit false

namespace Stowage

open Stowage.Action (Preserves)

namespace RecordLayout

/-! ### Layouts without strings -/

/-- Fields that hold no addresses are packed without the heap. -/
theorem preserves_packField {field : Member} (hfield : isFieldType field.type = true)
    (hinline : field.type.isVariable = false) (attached : Bool) (base : Int) (value : Value)
    (out : Bytes) : Preserves Eq (packField attached base field value out) := by
  rw [packField]
  match htype : field.type, hfield, hinline with
  | .number type, _, _ => exact Action.preserves_ofExcept (fun _ ↦ rfl) _
  | .fixedString width, _, _ =>
    dsimp only
    split
    · exact Action.preserves_refuse (fun _ ↦ rfl) _
    · exact Action.preserves_pure (fun _ ↦ rfl) _

theorem preserves_packFields {fields : List Member}
    (hfields : ∀ field ∈ fields, isFieldType field.type = true ∧ field.type.isVariable = false)
    (attached : Bool) (base : Int) (values : List Value) (out : Bytes) :
    Preserves Eq (packFields attached base fields values out) := by
  induction fields generalizing values out with
  | nil => exact Action.preserves_pure (fun _ ↦ rfl) _
  | cons field fields ih =>
    cases values with
    | nil => exact Action.preserves_pure (fun _ ↦ rfl) _
    | cons value values =>
      obtain ⟨hfield, hinline⟩ := hfields field List.mem_cons_self
      refine Preserves.bind (r := Eq) (fun _ _ _ ↦ Eq.trans)
        (preserves_packField hfield hinline attached base value out) fun out ↦ ?_
      exact ih (fun field hmem ↦ hfields field (List.mem_cons_of_mem _ hmem)) values out

theorem preserves_packFrom {layout : RecordLayout}
    (hfields : ∀ field ∈ layout.fields,
      isFieldType field.type = true ∧ field.type.isVariable = false)
    (attached : Bool) (number : Nat) (records : List Value) (out : Bytes) :
    Preserves Eq (layout.packFrom attached number records out) := by
  induction records generalizing number out with
  | nil => exact Action.preserves_pure (fun _ ↦ rfl) _
  | cons record rest ih =>
    rw [packFrom]
    split
    · exact Action.preserves_refuse (fun _ ↦ rfl) _
    · split
      · exact Action.preserves_refuse (fun _ ↦ rfl) _
      · exact Preserves.bind (r := Eq) (fun _ _ _ ↦ Eq.trans)
          (preserves_packFields hfields attached _ _ out) fun out ↦ ih (number + 1) out

/-- Packing records of an accepted layout without strings allocates nothing. -/
theorem pack_eq_nil {layout : RecordLayout} (hcheck : layout.check = .ok ())
    (hinline : layout.hasVariableFields = false) {attached : Bool} {records : Value}
    {heap after : Heap} {out : Bytes} {packed : List Nat}
    (hrun : (layout.pack attached records).run heap = (.ok (out, packed), after)) :
    packed = [] := by
  have hfields : ∀ field ∈ layout.fields,
      isFieldType field.type = true ∧ field.type.isVariable = false := fun field hmem ↦
    ⟨isFieldType_of_check hcheck field hmem,
      Bool.eq_false_iff.2 fun h ↦ List.any_eq_false.1 hinline field hmem h⟩
  unfold pack at hrun
  split at hrun
  · exact absurd (Prod.mk.inj hrun).1 (by simp)
  · next elements _ =>
    obtain ⟨zeros, middle, hzeros, hsettle⟩ := Action.run_bind_eq_ok.1 hrun
    have hsame := preserves_packFrom hfields attached 0 elements zeros ⟨middle, []⟩
    rw [Ledger.run_settle_eq_ok hsettle] at hsame
    exact (congrArg Ledger.owned hsame).symm

end RecordLayout

namespace Store

/-! ### Writers -/

/-- What a writer packs. -/
inductive Writer where
  /-- Strings. -/
  | strings
  /-- Records of a layout, with or without a heap for their strings. -/
  | records (layout : RecordLayout) (attached : Bool)

namespace Writer

/-- Writes values to a dataset. -/
def write (writer : Writer) (handle typeId : Int) (values : Value) : Action Store Unit :=
  match writer with
  | .strings => writeStrings handle typeId values
  | .records layout attached => writeRecords layout attached handle typeId values

/-- What a writer does to the heap before the dataset is looked at. -/
def packing (writer : Writer) (values : Value) : Action Heap (Bytes × List Nat) :=
  match writer with
  | .strings => Sequence.packStrings values
  | .records layout attached => do
    .ofExcept layout.check
    if attached then layout.pack true values else .refuse (.conversion .detached)

/-- Whether a writer reclaims its buffer. -/
def reclaims : Writer → Bool
  | .strings => true
  | .records layout _ => layout.hasVariableFields

/-- The type of what a writer packs. -/
def type : Writer → ElementType
  | .strings => .string
  | .records layout _ => layout.recordType

variable {writer : Writer} {values : Value}

/-- A writer packs, writes its buffer, and reclaims it whatever became of the write. -/
theorem run_write (writer : Writer) (handle typeId : Int) (values : Value) (store : Store) :
    (writer.write handle typeId values).run store =
      match (writer.packing values).run store.heap with
      | (.error fault, heap) => (.error fault, { store with heap })
      | (.ok (buffer, _), heap) => (Action.ensuring (Store.write handle typeId buffer)
          (reclaimIf writer.reclaims typeId (lengthOf values) buffer)).run { store with heap } := by
  match writer with
  | .strings =>
    rw [write, writeStrings, packStrings, Action.run_bind, onHeap, Action.run_within,
      Action.run_map, packing]
    rcases (Sequence.packStrings values).run store.heap with ⟨fault | ⟨buffer, packed⟩, heap⟩
    · rfl
    · rfl
  | .records layout attached =>
    rw [write, writeRecords, Action.run_bind, Action.run_ofExcept, packing]
    rcases layout.check with fault | ⟨⟩
    · rfl
    cases attached with
    | false => rfl
    | true =>
      dsimp only
      rw [Action.run_ofExcept_bind_ok rfl, if_pos rfl]
      change (onHeap (layout.pack true values) >>= _).run store = _
      rw [Action.run_bind, onHeap, Action.run_within]
      rcases (layout.pack true values).run store.heap with ⟨fault | ⟨buffer, packed⟩, heap⟩ <;> rfl

/-- Packing adds the packed blocks, or it is refused and adds none. -/
theorem packs_packing (writer : Writer) (values : Value) : Packs (writer.packing values) := by
  match writer with
  | .strings => exact Sequence.packs_packStrings values
  | .records layout attached =>
    refine packs_ofExcept_bind layout.notMemory_check fun _ ↦ ?_
    split
    · exact layout.packs_pack true values
    · exact packs_refuse (by simp)

/-- Assumes: the type of what is packed is laid out. The packed buffer leads to exactly the packed
blocks. -/
theorem emitsBuffer_packing (hlaid : writer.type.Laid) (values : Value) :
    EmitsBuffer writer.type values.items.length (fun _ ↦ True) (writer.packing values) := by
  match writer, hlaid with
  | .strings, _ => exact (Sequence.emitsBuffer_packStrings values).weaken fun _ _ ↦ trivial
  | .records layout attached, hlaid =>
    refine emitsBuffer_ofExcept_bind fun ⟨⟩ hcheck ↦ ?_
    rw [← layout.ofMembers_ofList] at hcheck
    have hemits := RecordLayout.emitsBuffer_pack hlaid hcheck values
    rw [layout.ofMembers_ofList] at hemits
    split
    · exact hemits.weaken fun _ _ ↦ trivial
    · exact emitsBuffer_refuse _

end Writer

/-! ### Reclaiming with a type -/

section Reclaiming

variable {store after : Store} {handle typeId n : Int} {buffer : Bytes} {lent packed : List Nat}
  {type : ElementType} {reclaims : Bool}

/-- As elements of the type, no more of them than said, the bytes of the buffer lead to the given
blocks. -/
def Reaches (type : ElementType) (heap : Heap) (number : Nat) (buffer : Bytes)
    (blocks : List Nat) : Prop :=
  ∃ count contents, 0 < type.width ∧ count ≤ number ∧ buffer.length = count * type.width ∧
    type.contentsEach? heap count buffer = some contents ∧ contents.blocks.Perm blocks

/-- Reclaiming with a number that stands for no type with addresses does nothing. -/
theorem run_reclaimIf_snd_of_inline
    (hinline : ∀ type, store.registry.typeOf typeId = .ok type → type.isVariable = false) :
    ((reclaimIf reclaims typeId n buffer).run store).2 = store := by
  rcases htype : store.registry.typeOf typeId with fault | type
  · unfold reclaimIf
    split
    · rw [reclaim, Action.run_bind, Action.run_reading, htype]
    · rfl
  · rw [run_reclaimIf htype, ElementType.freeEach, if_neg (by simp [hinline type htype])]
    rfl

/-- Assumes: the number stands for no type with addresses. All that is lent stays lent when a buffer
is written and reclaimed with it. -/
theorem Balanced.write_reclaim_of_inline (h : store.Balanced lent) (hsound : store.Sound)
    (hlaid : ∀ type ∈ store.registry.types, type.Laid)
    (hinline : ∀ type, store.registry.typeOf typeId = .ok type → type.isVariable = false)
    (hafter : ((Action.ensuring (Store.write handle typeId buffer)
      (reclaimIf reclaims typeId n buffer)).run store).2 = after)
    (hlimit : after.heap.top ≤ Heap.addressLimit) : after.Balanced lent := by
  have hregistry := (evolves_write handle typeId buffer store).registry_eq
  rw [Action.run_ensuring_snd, run_reclaimIf_snd_of_inline fun type htype ↦
    hinline type (hregistry ▸ htype)] at hafter
  subst hafter
  refine (h.write hsound (fun dataset type hfitting ↦ ?_) hlimit).1
  obtain ⟨_, htype, _, _⟩ := fitting_eq_ok.1 hfitting
  obtain ⟨views, hviews⟩ := Contents.ofItems?_of_inline
    (type.contents?_of_not_isVariable (hinline type htype)) type.width dataset.count buffer
  exact ⟨hlaid type (Registry.mem_of_typeOf htype), _, hviews store.heap⟩

/-- Assumes: with the type that the number stands for, the buffer leads to some of the lent blocks,
and it is reclaimed if there are any. When the buffer is written and reclaimed they are taken
back. -/
theorem Balanced.write_reclaim_of_reaches (h : store.Balanced (lent ++ packed))
    (hsound : store.Sound) (hlaid : type.Laid) (htype : store.registry.typeOf typeId = .ok type)
    (hreaches : Reaches type store.heap n.toNat buffer packed)
    (hreclaims : reclaims = false → packed = [])
    (hafter : ((Action.ensuring (Store.write handle typeId buffer)
      (reclaimIf reclaims typeId n buffer)).run store).2 = after)
    (hlimit : after.heap.top ≤ Heap.addressLimit) : after.Balanced lent := by
  obtain ⟨count, contents, hwidth, hcount, hlength, hcontents, hperm⟩ := hreaches
  rw [Action.run_ensuring_snd] at hafter
  have hevolves := evolves_write handle typeId buffer store
  have hwritten := staysSound_write handle typeId buffer store hsound
  have htop := (rules_evolves.reclaimIf reclaims typeId n buffer _).top_le hwritten.heap
  rw [hafter] at htop
  have hbuffer : ∀ dataset held, store.fitting handle typeId buffer.length = .ok (dataset, held) →
      held.Laid ∧ ∃ contents,
        held.contentsEach? store.heap dataset.count buffer = some contents := by
    intro dataset held hfitting
    obtain ⟨hdataset, hgiven, hheld, hsize⟩ := fitting_eq_ok.1 hfitting
    obtain rfl := Except.ok.inj (htype.symm.trans hgiven)
    have hfits := hsound.fits hdataset hheld hlaid
    obtain rfl : dataset.count = count := by
      refine Nat.eq_of_mul_eq_mul_right hwidth ?_
      rw [← hfits.length_eq, ← hlength, hsize]
    exact ⟨hlaid, contents, hcontents⟩
  obtain ⟨hmiddle, hkeeps⟩ := h.write hsound hbuffer (Nat.le_trans htop hlimit)
  generalize ((Store.write handle typeId buffer).run store).2 = middle at *
  have hreached : type.contentsEach? middle.heap count buffer = some contents :=
    ElementType.contentsEach?_of_keepsReads hkeeps hcontents fun a ha ↦
      List.mem_append_right _ (hperm.mem_iff.1 ha)
  have hlent : (lent ++ packed).Perm (contents.blocks ++ lent) :=
    List.perm_append_comm.trans (hperm.symm.append_right lent)
  have hholds : middle.heap.Holds contents.blocks := by
    have hall := hmiddle.holds hwritten.heap
    exact ⟨((hlent.nodup_iff.1 hall.nodup).of_append_left), fun a ha ↦
      hall.isLive a (List.mem_append_right _ (hperm.mem_iff.1 ha))⟩
  have hfree : ((type.freeEach (if reclaims then n.toNat else 0) buffer).run middle.heap).2 =
      middle.heap.release contents.blocks := by
    cases reclaims with
    | true =>
      refine ElementType.freeEach_some hlaid hwritten.heap hlength ?_ hholds
      rw [if_pos rfl, Nat.min_eq_right hcount]
      exact hreached
    | false =>
      rw [hreclaims rfl] at hperm
      rw [hperm.eq_nil, Heap.release_nil, if_neg Bool.false_ne_true, ElementType.freeEach_zero]
      rfl
  rw [run_reclaimIf (hevolves.registry_eq ▸ htype), onHeap, Action.run_within, hfree] at hafter
  subst hafter
  have hlast := hmiddle.change hwritten.heap (.release hwritten.heap contents.blocks) hlent
  rwa [List.append_nil] at hlast

end Reclaiming

namespace Writer

variable {writer : Writer} {values : Value} {heap after : Heap} {buffer : Bytes} {packed : List Nat}

/-- A writer reclaims its buffer when what it packs holds addresses. -/
theorem isVariable_type (writer : Writer) : writer.type.isVariable = writer.reclaims := by
  match writer with
  | .strings => rfl
  | .records layout _ =>
    have h := RecordLayout.hasVariableFields_ofMembers (.ofList layout.fields) layout.size
    rw [layout.ofMembers_ofList] at h
    exact h.symm

/-- Records are packed with a heap and by a layout that is accepted. -/
theorem packing_records_eq_ok {layout : RecordLayout} {attached : Bool}
    (hrun : ((records layout attached).packing values).run heap = (.ok (buffer, packed), after)) :
    layout.check = .ok () ∧
      (layout.pack true values).run heap = (.ok (buffer, packed), after) := by
  rw [packing] at hrun
  rcases hcheck : layout.check with fault | ⟨⟩
  · rw [Action.run_ofExcept_bind_error hcheck] at hrun
    exact absurd (Prod.mk.inj hrun).1 (by simp)
  · rw [Action.run_ofExcept_bind_ok hcheck] at hrun
    split at hrun
    · exact ⟨rfl, hrun⟩
    · exact absurd (Prod.mk.inj hrun).1 (by simp)

section Packed

variable (hrun : (writer.packing values).run heap = (.ok (buffer, packed), after))

include hrun

/-- A writer that reclaims nothing has packed nothing that could be reclaimed. -/
theorem packed_eq_nil (hreclaims : writer.reclaims = false) : packed = [] := by
  match writer, hreclaims with
  | .records layout attached, hreclaims =>
    obtain ⟨hcheck, hpack⟩ := packing_records_eq_ok hrun
    exact RecordLayout.pack_eq_nil hcheck hreclaims hpack

theorem width_pos (hreclaims : writer.reclaims = true) : 0 < writer.type.width := by
  match writer, hreclaims with
  | .strings, _ => decide
  | .records layout attached, hreclaims =>
    have hcheck := (packing_records_eq_ok hrun).1
    have hsize := RecordLayout.size_pos_of_hasVariableFields hcheck hreclaims
    change 0 < layout.size.toNat
    omega

/-- What a writer packs leads to the packed blocks when it is followed with the type of what is
packed. -/
theorem reaches_packed (hlaid : writer.type.Laid) (hreclaims : writer.reclaims = true)
    (hsound : heap.Sound) : Reaches writer.type after (lengthOf values).toNat buffer packed := by
  obtain ⟨hlength, hemitted⟩ := writer.emitsBuffer_packing hlaid values _ _ _ _ hsound hrun
  obtain ⟨contents, hcontents, rfl, _⟩ := hemitted.contents
  exact ⟨values.items.length, contents, width_pos hrun hreclaims,
    Nat.le_of_eq (toNat_lengthOf values).symm, hlength, hcontents, List.Perm.refl _⟩

end Packed

end Writer

/-- Assumes: a library all of whose types are laid out, whose live blocks are those that the
datasets lead to and some others, each of them once; any writer, any numbers and values; and a heap
whose addresses fit the eight bytes they are stored in. When packing is refused, the live blocks
are again those of the datasets and the others. When values are packed, the same holds if the
number stands for the type of what is packed, or for any other type that leads from the buffer to
the packed blocks. But if it stands for no type or for one without addresses, the packed blocks are
live as well, and no dataset leads to them. -/
theorem write_keeps_balance {store after : Store} {lent : List Nat} (hsound : store.Sound)
    (hlaid : ∀ type ∈ store.registry.types, type.Laid) (hbalanced : store.Balanced lent)
    (writer : Writer) (handle typeId : Int) (values : Value)
    (hafter : ((writer.write handle typeId values).run store).2 = after)
    (hlimit : after.heap.top ≤ Heap.addressLimit) :
    (∃ fault, ((writer.packing values).run store.heap).1 = .error fault ∧ after.Balanced lent) ∨
      ∃ buffer packed heap,
        (writer.packing values).run store.heap = (.ok (buffer, packed), heap) ∧
          (store.registry.typeOf typeId = .ok writer.type → after.Balanced lent) ∧
          (∀ type, store.registry.typeOf typeId = .ok type →
            Reaches type heap (lengthOf values).toNat buffer packed → after.Balanced lent) ∧
          ((∀ type, store.registry.typeOf typeId = .ok type → type.isVariable = false) →
            after.Balanced (lent ++ packed)) := by
  rw [Writer.run_write] at hafter
  rcases writer.packs_packing values store.heap hsound.heap with
    ⟨buffer, packed, heap, hrun, hchanged⟩ | ⟨fault, heap, hrun, hchanged, _⟩
  · right
    rw [hrun] at hafter
    dsimp only at hafter
    have hpacked : { store with heap }.Balanced (lent ++ packed) :=
      hbalanced.change hsound.heap hchanged (List.Perm.refl lent)
    have hpackedSound : { store with heap }.Sound := hsound.withHeap hchanged.sound
    have hreached : ∀ type, store.registry.typeOf typeId = .ok type →
        Reaches type heap (lengthOf values).toNat buffer packed → after.Balanced lent := by
      intro type htype hreaches
      exact hpacked.write_reclaim_of_reaches hpackedSound
        (hlaid type (Registry.mem_of_typeOf htype)) htype hreaches
        (fun hreclaims ↦ Writer.packed_eq_nil hrun hreclaims) hafter hlimit
    refine ⟨buffer, packed, heap, hrun, fun htype ↦ ?_, hreached, fun hinline ↦ ?_⟩
    · have hlaidType := hlaid _ (Registry.mem_of_typeOf htype)
      rcases hreclaims : writer.reclaims with _ | _
      · obtain rfl := Writer.packed_eq_nil hrun hreclaims
        rw [List.append_nil] at hpacked
        refine hpacked.write_reclaim_of_inline hpackedSound hlaid (fun type hgiven ↦ ?_) hafter
          hlimit
        obtain rfl := Except.ok.inj (htype.symm.trans hgiven)
        exact writer.isVariable_type.trans hreclaims
      · exact hreached _ htype (Writer.reaches_packed hrun hlaidType hreclaims hsound.heap)
    · exact hpacked.write_reclaim_of_inline hpackedSound hlaid hinline hafter hlimit
  · left
    rw [hrun] at hafter
    subst hafter
    have hrefused := hbalanced.change hsound.heap hchanged (List.Perm.refl lent)
    rw [List.append_nil] at hrefused
    exact ⟨fault, by rw [hrun], hrefused⟩

/-- The dataset leads to all live blocks. -/
theorem lettered_balanced : lettered.Balanced [] := by
  have hdatasets : lettered.datasets = [⟨1, 2, Bytes.ofNat 8 24 ++ Bytes.ofNat 8 32⟩] := by
    decide +kernel
  have hcontents : (Dataset.contents? lettered
      ⟨1, 2, Bytes.ofNat 8 24 ++ Bytes.ofNat 8 32⟩).map (·.blocks) = some [24, 32] := by
    decide +kernel
  obtain ⟨contents, hcontents, hblocks⟩ := Option.map_eq_some_iff.1 hcontents
  refine ⟨[[24, 32]], ?_, by decide +kernel⟩
  rw [Leads, hdatasets]
  exact .cons ⟨contents, hcontents, hblocks⟩ .nil

/-- Writing two strings to the dataset keeps the balance. Writing a string with a number that stands
for no type is refused, and the packed string is live afterwards. -/
theorem write_keeps_balance_lettered :
    ((Writer.strings.write 1 1 (.list [.text "c", .text "d"])).run lettered).2.Balanced [] ∧
      ((Writer.strings.write 1 9 (.list [.text "c"])).run lettered).2.Balanced [40] := by
  have hlaid : ∀ type ∈ lettered.registry.types, type.Laid := by
    have htypes : lettered.registry.types = [.string] := by decide +kernel
    rw [htypes]
    exact fun type htype ↦ List.mem_singleton.1 htype ▸ trivial
  have hgranted : ((Writer.strings.packing (.list [.text "c", .text "d"])).run
      lettered.heap).1.toOption.isSome = true := by decide +kernel
  have hpacked : ((Writer.strings.packing (.list [.text "c"])).run lettered.heap).1.toOption.map
      (·.2) = some [40] := by decide +kernel
  have hunknown : (lettered.registry.typeOf 9).toOption = none := by decide +kernel
  constructor
  · rcases write_keeps_balance reachable_lettered.sound hlaid lettered_balanced .strings 1 1
      (.list [.text "c", .text "d"]) rfl (by decide +kernel) with
      ⟨fault, hrefused, _⟩ | ⟨_, _, _, _, hsame, _, _⟩
    · rw [hrefused] at hgranted
      exact absurd hgranted (by simp [Except.toOption])
    · exact hsame (by decide +kernel)
  · rcases write_keeps_balance reachable_lettered.sound hlaid lettered_balanced .strings 1 9
      (.list [.text "c"]) rfl (by decide +kernel) with
      ⟨fault, hrefused, _⟩ | ⟨_, _, _, hrun, _, _, hinline⟩
    · rw [hrefused] at hpacked
      exact absurd hpacked (by simp [Except.toOption])
    · rw [hrun] at hpacked
      obtain rfl := Option.some.inj hpacked
      refine hinline fun type htype ↦ ?_
      rw [htype] at hunknown
      exact absurd hunknown (by simp [Except.toOption])

/-- In a library whose datasets lead to all live blocks, a string is written with a number that
stands for no type. The write is refused, and the block that was packed for the string is still
live. -/
theorem write_leaves_packed :
    lettered.Balanced [] ∧
    ((Writer.strings.packing (.list [.text "c"])).run lettered.heap).1.toOption.map (·.2) =
      some [40] ∧
    ((Writer.strings.write 1 9 (.list [.text "c"])).run lettered).1 =
      .error (.lookup (.typeId 9)) ∧
    ((Writer.strings.write 1 9 (.list [.text "c"])).run lettered).2.heap.isLive 40 = true ∧
    ((Writer.strings.write 1 9 (.list [.text "c"])).run lettered).2.datasets = lettered.datasets :=
  ⟨lettered_balanced, by decide +kernel, by decide +kernel, by decide +kernel, by decide +kernel⟩

end Store

end Stowage
