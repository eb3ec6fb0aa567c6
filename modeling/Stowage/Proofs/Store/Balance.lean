import Stowage.Proofs.Packing.Sequences
import Stowage.Proofs.Registry.Classification
import Stowage.Proofs.Store.Lending

/-!
# No leaks

Transfers between values and datasets lend blocks to a buffer and take them back, whether they
succeed or are refused on the way. So when all calls are transfers that use the type of the dataset,
the live blocks are exactly those that the datasets lead to, and every one of them is reached once
(`Runs.isLive_iff_owned`).

Addresses are stored in eight bytes, so what a buffer leads to is only known while the top of the
heap is not above `Heap.addressLimit`. As the top never falls, it is enough to know this at the end.
-/

set_option autoImplicit false

namespace Stowage

open Stowage.Action (Preserves)

namespace Store

/-! ### Tidy libraries -/

/-- A sound library all of whose types are well-formed. -/
structure Orderly (store : Store) : Prop where
  /-- The library is sound. -/
  sound : store.Sound
  /-- The types are well-formed. -/
  wellFormed : ∀ type ∈ store.registry.types, type.WellFormed

/-- Nothing is lent. -/
structure Tidy (store : Store) : Prop extends Orderly store where
  /-- The live blocks are those of the datasets. -/
  balanced : store.heap.top ≤ Heap.addressLimit → store.Balanced []

/-- What is lent are the blocks of a buffer that holds `count` elements of the type. -/
structure Carries (store : Store) (typeId : Int) (type : ElementType) (count : Nat)
    (buffer : Bytes) : Prop extends Orderly store where
  /-- The number of the type. -/
  typeOf : store.registry.typeOf typeId = .ok type
  /-- The buffer holds the elements and nothing else. -/
  length_eq : buffer.length = count * type.width
  /-- The other live blocks are those of the datasets. -/
  balanced : store.heap.top ≤ Heap.addressLimit → ∃ contents,
    type.contentsEach? store.heap count buffer = some contents ∧ store.Balanced contents.blocks

variable {store : Store} {handle typeId : Int} {type : ElementType} {count : Nat} {buffer : Bytes}

theorem Orderly.typeWellFormed (h : store.Orderly)
    (htype : store.registry.typeOf typeId = .ok type) :
    type.WellFormed :=
  h.wellFormed type (Registry.mem_of_typeOf htype)

/-- A step that leaves the registry alone keeps a library orderly when it keeps it sound. -/
theorem Orderly.of_evolves {after : Store} (h : store.Orderly) (hevolves : store.Evolves after)
    (hsound : StaysSound store after) : after.Orderly :=
  ⟨hsound h.sound, hevolves.registry_eq ▸ h.wellFormed⟩

theorem tidy_empty (capacity : Nat) : (empty capacity).Tidy where
  sound := sound_empty capacity
  wellFormed := fun _ h ↦ absurd h List.not_mem_nil
  balanced := fun _ ↦ ⟨[], .nil, .nil⟩

/-- A buffer that was lent is written and is still lent. -/
theorem Carries.write (h : store.Carries typeId type count buffer) (handle : Int) :
    ((Store.write handle typeId buffer).run store).2.Carries typeId type count buffer := by
  have hevolves := evolves_write handle typeId buffer store
  have horderly := h.toOrderly.of_evolves hevolves (staysSound_write handle typeId buffer store)
  refine ⟨horderly, hevolves.registry_eq ▸ h.typeOf, h.length_eq, fun hlimit ↦ ?_⟩
  obtain ⟨contents, hcontents, hbalanced⟩ :=
    h.balanced (Nat.le_trans (hevolves.top_le h.sound.heap) hlimit)
  have hwellFormed := h.typeWellFormed h.typeOf
  -- a buffer that fits a dataset holds as many elements
  obtain ⟨hafter, hkeeps⟩ := hbalanced.write h.sound (fun dataset held hfitting ↦ by
    obtain ⟨hdataset, hgiven, hheld, hlength⟩ := fitting_eq_ok.1 hfitting
    obtain rfl := Except.ok.inj (h.typeOf.symm.trans hgiven)
    have hfits := h.sound.fits hdataset hheld hwellFormed
    obtain rfl : dataset.count = count := by
      refine Nat.eq_of_mul_eq_mul_right (ElementType.width_pos hwellFormed) ?_
      rw [← hfits.length_eq, ← h.length_eq, hlength]
    exact ⟨hwellFormed, contents, hcontents⟩) hlimit
  exact ⟨contents, ElementType.contentsEach?_of_keepsReads hkeeps hcontents fun _ ha ↦ ha, hafter⟩

/-- A buffer that was lent is reclaimed. -/
theorem Carries.reclaimIf (h : store.Carries typeId type count buffer) {n : Int}
    (hn : n.toNat = count) :
    ((Store.reclaimIf type.isVariable typeId n buffer).run store).2.Tidy := by
  have hevolves := rules_evolves.reclaimIf type.isVariable typeId n buffer store
  have horderly := h.toOrderly.of_evolves hevolves
    (rules_staysSound.reclaimIf type.isVariable typeId n buffer store)
  refine ⟨horderly, fun hlimit ↦ ?_⟩
  obtain ⟨contents, hcontents, hbalanced⟩ :=
    h.balanced (Nat.le_trans (hevolves.top_le h.sound.heap) hlimit)
  have hholds : store.heap.Holds contents.blocks := hbalanced.holds h.sound.heap
  rw [reclaimIf_eq store h.sound.heap (h.typeWellFormed h.typeOf) h.typeOf
    (Nat.le_of_eq h.length_eq.symm) hcontents hholds hn]
  have hall : contents.blocks.Perm (contents.blocks ++ []) := by rw [List.append_nil]
  exact hbalanced.change h.sound.heap (.release h.sound.heap contents.blocks) hall

/-! ### Buffers that are lent -/

/-- Whenever the action succeeds, its buffer is lent; when it is refused, nothing is. -/
structure Lends {β : Type} (store : Store) (x : Action Store β) (bytesOf : β → Bytes) (typeId : Int)
    (type : ElementType) (count : Nat) : Prop where
  /-- The buffer is lent. -/
  ok : ∀ b after, x.run store = (.ok b, after) → after.Carries typeId type count (bytesOf b)
  /-- Nothing is lent. -/
  error : ∀ fault after, x.run store = (.error fault, after) → after.Tidy

namespace Lends

variable {β γ : Type} {x : Action Store β} {bytesOf : β → Bytes} {after : Store}

theorem of_ok {b : β} (hrun : x.run store = (.ok b, after))
    (h : after.Carries typeId type count (bytesOf b)) :
    store.Lends x bytesOf typeId type count := by
  refine ⟨fun b' after' hb ↦ ?_, fun fault after' hb ↦ ?_⟩
  · obtain ⟨hresult, rfl⟩ := Prod.mk.inj (hrun.symm.trans hb)
    exact Except.ok.inj hresult ▸ h
  · exact absurd (Prod.mk.inj (hrun.symm.trans hb)).1 (by simp)

theorem of_error {fault : Fault} (hrun : x.run store = (.error fault, after)) (h : after.Tidy) :
    store.Lends x bytesOf typeId type count := by
  refine ⟨fun b after' hb ↦ ?_, fun fault' after' hb ↦ ?_⟩
  · exact absurd (Prod.mk.inj (hrun.symm.trans hb)).1 (by simp)
  · obtain ⟨_, rfl⟩ := Prod.mk.inj (hrun.symm.trans hb)
    exact h

theorem congr {y : Action Store β} (h : store.Lends x bytesOf typeId type count)
    (hrun : y.run store = x.run store) : store.Lends y bytesOf typeId type count :=
  ⟨fun b after hb ↦ h.ok b after (hrun ▸ hb), fun fault after hb ↦ h.error fault after (hrun ▸ hb)⟩

/-- What comes after has to take the buffer back. -/
theorem bind {z : β → Action Store γ} (h : store.Lends x bytesOf typeId type count)
    (hz : ∀ b after, after.Carries typeId type count (bytesOf b) → ((z b).run after).2.Tidy) :
    ((x >>= z).run store).2.Tidy := by
  rw [Action.run_bind]
  rcases hx : x.run store with ⟨fault | b, after⟩
  · exact h.error fault after hx
  · exact hz b after (h.ok b after hx)

end Lends

/-- A buffer is taken back whatever became of an action that keeps it lent. -/
theorem Carries.ensuring {α : Type} {x : Action Store α} {n : Int}
    (hx : (x.run store).2.Carries typeId type count buffer) (hn : n.toNat = count) :
    ((Action.ensuring x (Store.reclaimIf type.isVariable typeId n buffer)).run store).2.Tidy := by
  rw [Action.run_ensuring_snd]
  exact hx.reclaimIf hn

/-- A buffer is taken back whatever was found in it. -/
theorem Carries.ensuring_reading {α : Type} {f : Store → Except Fault α} {n : Int}
    (h : store.Carries typeId type count buffer) (hn : n.toNat = count) :
    ((Action.ensuring (.reading f) (Store.reclaimIf type.isVariable typeId n buffer)).run
      store).2.Tidy :=
  Carries.ensuring (x := Action.reading f) h hn

/-- Nothing is lent when nothing was freed or added. -/
theorem Tidy.withHeap (h : store.Tidy) {heap : Heap} (hchanged : store.heap.Changed heap [] []) :
    { store with heap }.Tidy where
  sound := h.sound.withHeap hchanged.sound
  wellFormed := h.wellFormed
  balanced := fun hlimit ↦
    (h.balanced (Nat.le_trans hchanged.top_le hlimit)).change
      h.sound.heap hchanged (List.Perm.refl _)

/-- A buffer that leads to the added blocks is lent. -/
theorem Tidy.carries (h : store.Tidy) (htype : store.registry.typeOf typeId = .ok type)
    {heap : Heap}
    {added : List Nat} (hchanged : store.heap.Changed heap [] added)
    (hlength : buffer.length = count * type.width)
    (hcontents : heap.top ≤ Heap.addressLimit → ∃ contents,
      type.contentsEach? heap count buffer = some contents ∧ contents.blocks = added) :
    { store with heap }.Carries typeId type count buffer where
  sound := h.sound.withHeap hchanged.sound
  wellFormed := h.wellFormed
  typeOf := htype
  length_eq := hlength
  balanced := by
    intro hlimit
    obtain ⟨contents, hfollowed, rfl⟩ := hcontents hlimit
    have hbefore := h.balanced (Nat.le_trans hchanged.top_le hlimit)
    exact ⟨contents, hfollowed, hbefore.change h.sound.heap hchanged (List.Perm.refl _)⟩

/-- A packed buffer is lent. -/
theorem lends_onHeap {β : Type} (h : store.Tidy) (htype : store.registry.typeOf typeId = .ok type)
    {x : Action Heap (Bytes × List Nat)} {accepts : List View → Prop} (hpacks : Packs x)
    (hemits : EmitsBuffer type count accepts x) {f : Bytes × List Nat → β} {bytesOf : β → Bytes}
    (hf : ∀ packed, bytesOf (f packed) = packed.1) :
    store.Lends (onHeap (f <$> x)) bytesOf typeId type count := by
  have hrun : (onHeap (f <$> x)).run store =
      ((x.run store.heap).1.map f, { store with heap := (x.run store.heap).2 }) := by
    rw [onHeap, Action.run_within, Action.run_map]
  rcases hpacks store.heap h.sound.heap with ⟨out, addresses, packed, hpack, hchanged⟩ |
    ⟨refused, packed, hpack, hchanged, _⟩
  · rw [hpack] at hrun
    refine .of_ok hrun ?_
    rw [hf]
    obtain ⟨hlength, hemitted⟩ := hemits _ _ _ _ h.sound.heap hpack
    refine h.carries htype hchanged hlength fun _ ↦ ?_
    obtain ⟨contents, hcontents, hblocks, _⟩ := hemitted.contents
    exact ⟨contents, hcontents, hblocks⟩
  · rw [hpack] at hrun
    exact .of_error hrun (h.withHeap hchanged)

/-- A dataset that can be followed is read, and the copies are lent. -/
theorem lends_read (h : store.Tidy) (htype : store.registry.typeOf typeId = .ok type) (handle : Int)
    (count : Nat) :
    store.Lends (Store.read handle typeId (count * type.width)) id typeId type count := by
  rcases hfitting : store.fitting handle typeId (count * type.width) with fault | ⟨dataset, held⟩
  · have hrun :
        (Store.read handle typeId (count * type.width)).run store = (.error fault, store) := by
      rw [Store.read, Action.run_bind_error]
      rw [Action.run_reading, hfitting]
    exact .of_error hrun h
  · obtain ⟨hdataset, hgiven, hheld, hsize⟩ := fitting_eq_ok.1 hfitting
    obtain rfl := Except.ok.inj (htype.symm.trans hgiven)
    have hwellFormed := h.typeWellFormed htype
    have hlength := (h.sound.fits hdataset hheld hwellFormed).length_eq
    obtain rfl : dataset.count = count := by
      refine Nat.eq_of_mul_eq_mul_right (ElementType.width_pos hwellFormed) ?_
      rw [← hlength, hsize]
    have hrun := read_eq hfitting
    rcases hcopy : (type.copyEach dataset.count dataset.data).run store.heap with
      ⟨fault | out, heap⟩
    · rw [hcopy] at hrun
      have hevolves := rules_evolves.read handle typeId (dataset.count * type.width) store
      have horderly := h.toOrderly.of_evolves hevolves
        (rules_staysSound.read handle typeId (dataset.count * type.width) store)
      rw [hrun] at hevolves horderly
      refine .of_error hrun ⟨horderly, fun hlimit ↦ ?_⟩
      -- as long as addresses fit, the dataset can be followed and is copied
      have hbalanced := h.balanced (Nat.le_trans (hevolves.top_le h.sound.heap) hlimit)
      obtain ⟨_, ⟨_, found, contents, hfound, hcontents, _⟩, _⟩ :=
        hbalanced.replace h.sound.heap hdataset
      obtain rfl := Except.ok.inj (hdataset.symm.trans hfound)
      rw [contents?_eq_of_typeOf hheld] at hcontents
      obtain ⟨out, _, _, hcopied, _⟩ :=
        ElementType.copyEach_of_contents hwellFormed h.sound.heap hlength hcontents
      exact absurd (Prod.mk.inj (hcopy.symm.trans hcopied)).1 (by simp)
    · rw [hcopy] at hrun
      obtain ⟨added, hgrown, hout, hcopied⟩ :=
        ElementType.contents_of_copyEach hwellFormed h.sound.heap hlength hcopy
      exact .of_ok hrun (h.carries htype hgrown.changed (hout.trans hlength) hcopied)

/-- A fetched buffer is lent. -/
theorem lends_fetch (h : store.Tidy) (htype : store.registry.typeOf typeId = .ok type)
    (handle n : Int) :
    store.Lends (fetch handle typeId (n * type.size)) id typeId type n.toNat := by
  have hwellFormed := h.typeWellFormed htype
  rcases hzeroed : Buffer.zeroed (n * type.size) with fault | zeros
  · have hrun : (fetch handle typeId (n * type.size)).run store = (.error fault, store) := by
      rw [fetch, Action.run_ofExcept_bind_error hzeroed]
    exact .of_error hrun h
  · obtain ⟨hnonneg, hlimit, _⟩ := Buffer.zeroed_eq_ok.1 hzeroed
    obtain ⟨count, rfl⟩ := Int.eq_ofNat_of_zero_le
      (Int.nonneg_of_mul_nonneg_left hnonneg (ElementType.size_pos hwellFormed))
    rw [ElementType.mul_size hwellFormed] at hlimit
    exact (lends_read h htype handle count).congr (fetch_eq hwellFormed hlimit)

/-! ### Transfers -/

namespace Tidy

variable (h : store.Tidy)

include h

section Sequences

variable {element : ElementType} (htype : store.registry.typeOf typeId = .ok (.vlen element))

include htype

theorem writeSequences (handle : Int) (values : Value) :
    ((Store.writeSequences handle typeId values).run store).2.Tidy := by
  have hvlen : (ElementType.vlen element).WellFormed := h.typeWellFormed htype
  have hwellFormed : element.WellFormed := hvlen
  have hlends :
      store.Lends (onHeap ((·.1) <$> Sequence.packSequences store.catalogue values typeId))
      id typeId (.vlen element) values.items.length :=
    lends_onHeap h htype (Sequence.packs_packSequences store.registry values typeId)
      (Sequence.emitsBuffer_packSequences hwellFormed
        (fun _ ↦ Registry.eq_of_sequenceElement htype hvlen) values) fun _ ↦ rfl
  refine (hlends.congr (y := Store.packSequences values typeId) rfl).bind
    fun table after hafter ↦ ?_
  exact (hafter.write handle).ensuring (toNat_lengthOf values)

theorem readSequences (handle count : Int) :
    ((Store.readSequences handle typeId count).run store).2.Tidy := by
  refine (lends_fetch h htype handle count).bind fun table after hafter ↦ ?_
  rw [Action.run_bind_ofExcept]
  exact hafter.ensuring_reading rfl

end Sequences

section Arrays

variable {element : ElementType} {length : Int}
  (htype : store.registry.typeOf typeId = .ok (.array element length))

include htype

/-- After the array type is looked up there is still nothing lent. -/
theorem bind_arrayType {α : Type} {z : ElementType → Action Store α}
    (hz : ((z (.array element length)).run store).2.Tidy) :
    ((Store.arrayType typeId >>= z).run store).2.Tidy := by
  rcases hfound : store.catalogue.arrayElement typeId with fault | found
  · have hrun : (Store.arrayType typeId).run store = (.error fault, store) := by
      rw [Store.arrayType, Action.run_reading, hfound, Outcome.error_bind]
    rw [Action.run_bind_error hrun]
    exact h
  · have hrun : (Store.arrayType typeId).run store = (.ok (.array element length), store) := by
      rw [Store.arrayType, Action.run_reading, hfound,
        Registry.eq_of_arrayElement htype (h.typeWellFormed htype) hfound]
      rfl
    rw [Action.run_bind_ok hrun]
    exact hz

theorem writeArrays (handle : Int) (values : Value) :
    ((Store.writeArrays handle typeId values).run store).2.Tidy := by
  refine h.bind_arrayType htype ?_
  have hlends : store.Lends (onHeap ((·.1) <$> Sequence.packArrays store.catalogue values typeId))
      id typeId (.array element length) values.items.length :=
    lends_onHeap h htype (Sequence.packs_packArrays store.registry values typeId)
      (Sequence.emitsBuffer_packArrays (h.typeWellFormed htype)
        (fun _ ↦ Registry.eq_of_arrayElement htype (h.typeWellFormed htype)) values) fun _ ↦ rfl
  refine (hlends.congr (y := Store.packArrays values typeId) rfl).bind fun buffer after hafter ↦ ?_
  exact (hafter.write handle).ensuring (toNat_lengthOf values)

theorem readArrays (handle count : Int) :
    ((Store.readArrays handle typeId count).run store).2.Tidy := by
  refine h.bind_arrayType htype
    ((lends_fetch h htype handle count).bind fun buffer after hafter ↦ ?_)
  rw [Action.run_bind_ofExcept]
  exact hafter.ensuring_reading rfl

end Arrays

section Strings

variable (htype : store.registry.typeOf typeId = .ok .string)

include htype

theorem writeStrings (handle : Int) (values : Value) :
    ((Store.writeStrings handle typeId values).run store).2.Tidy := by
  have hlends : store.Lends (onHeap ((·.1) <$> Sequence.packStrings values)) id typeId .string
      values.items.length :=
    lends_onHeap h htype (Sequence.packs_packStrings values)
      (Sequence.emitsBuffer_packStrings values) fun _ ↦ rfl
  refine (hlends.congr (y := Store.packStrings values) rfl).bind fun buffer after hafter ↦ ?_
  exact (hafter.write handle).ensuring (toNat_lengthOf values)

theorem readStrings (handle count : Int) :
    ((Store.readStrings handle typeId count).run store).2.Tidy := by
  refine (lends_fetch h htype handle count).bind fun buffer after hafter ↦ ?_
  exact hafter.ensuring_reading rfl

end Strings

section Records

variable {members : Members} {size : Int}
  (htype : store.registry.typeOf typeId = .ok (.compound members size))

/-- After the layout and the heap are checked there is still nothing lent. -/
theorem bind_checks {α : Type} {layout : RecordLayout} {attached : Bool} {z : Action Store α}
    (hz : layout.check = .ok () → (z.run store).2.Tidy) :
    ((Action.ofExcept layout.check >>= fun _ ↦ requireAttached attached >>= fun _ ↦ z).run
      store).2.Tidy := by
  rcases hcheck : layout.check with fault | ⟨⟩
  · exact h
  · cases attached with
    | false => exact h
    | true => exact hz hcheck

include htype

theorem writeRecords (attached : Bool) (handle : Int) (records : Value) :
    ((Store.writeRecords (.ofMembers members size) attached handle typeId records).run
      store).2.Tidy := by
  have hvariable : (RecordLayout.ofMembers members size).hasVariableFields =
      (ElementType.compound members size).isVariable :=
    RecordLayout.hasVariableFields_ofMembers members size
  refine h.bind_checks fun hcheck ↦ ?_
  have hlends : store.Lends
      (onHeap (id <$> (RecordLayout.ofMembers members size).pack true records)) (·.1) typeId
      (.compound members size) records.items.length :=
    lends_onHeap h htype ((RecordLayout.ofMembers members size).packs_pack true records)
      (RecordLayout.emitsBuffer_pack (h.typeWellFormed htype).laid hcheck records) fun _ ↦ rfl
  rw [hvariable]
  refine (hlends.congr (y := onHeap ((RecordLayout.ofMembers members size).pack true records))
    ?_).bind fun packed after hafter ↦ ?_
  · rw [onHeap, Action.run_within, onHeap, Action.run_within, Action.run_map]
    rcases ((RecordLayout.ofMembers members size).pack true records).run store.heap with
      ⟨_ | _, _⟩ <;> rfl
  · exact (hafter.write handle).ensuring (toNat_lengthOf records)

theorem readRecords (attached : Bool) (handle count : Int) :
    ((Store.readRecords (.ofMembers members size) attached handle typeId count).run
      store).2.Tidy := by
  have hvariable : (RecordLayout.ofMembers members size).hasVariableFields =
      (ElementType.compound members size).isVariable :=
    RecordLayout.hasVariableFields_ofMembers members size
  refine h.bind_checks fun _ ↦ (lends_fetch h htype handle count).bind fun buffer after hafter ↦ ?_
  rw [hvariable]
  exact hafter.ensuring_reading rfl

end Records

/-! ### Registering types and creating datasets -/

theorem register (hwellFormed : type.WellFormed) : ((Store.register type).run store).2.Tidy := by
  have hextends := type.extends_registerIn store.registry
  refine ⟨⟨staysSound_register type store h.sound, ?_⟩, fun hlimit ↦ ?_⟩
  · exact type.wellFormed_registerIn hwellFormed h.wellFormed
  · obtain ⟨owned, hleads, hlive⟩ := h.balanced hlimit
    refine ⟨owned, hleads.imp fun d blocks ⟨contents, hcontents, hblocks⟩ ↦ ?_, hlive⟩
    refine ⟨contents, ?_, hblocks⟩
    unfold Dataset.contents? at hcontents
    split at hcontents
    · next held hheld =>
      have hafter := Registry.typeOf_of_extends hextends hheld
      exact (contents?_eq_of_typeOf hafter).trans hcontents
    · exact absurd hcontents (by simp)

/-- A new dataset holds zeros and leads nowhere. -/
theorem createDataset (typeId count : Int) :
    ((Store.createDataset typeId count).run store).2.Tidy := by
  have hsound := staysSound_createDataset typeId count store h.sound
  rcases run_createDataset store typeId count with hsame | ⟨type, n, htype, _, hrun⟩
  · rw [hsame]
    exact h
  · rw [hrun] at hsound ⊢
    refine ⟨⟨hsound, h.wellFormed⟩, fun hlimit ↦ ?_⟩
    obtain ⟨owned, hleads, hlive⟩ := h.balanced hlimit
    obtain ⟨views, hviews⟩ := Contents.ofItems?_of_parts Bytes.IsZero.parts
      (fun _ hzero ↦ type.contents?_of_isZero hzero) type.width n
      (Bytes.isZero_zeros (n * type.size).toNat)
    have hnew : Dataset.contents? store ⟨typeId, n, Bytes.zeros (n * type.size).toNat⟩ =
        some ⟨views, []⟩ := (contents?_eq_of_typeOf htype).trans (hviews store.heap)
    refine ⟨owned ++ [[]], ?_, ?_⟩
    · exact List.rel_append hleads (.cons ⟨_, hnew, rfl⟩ .nil)
    · rw [List.flatten_append, List.flatten_singleton, List.append_nil]
      exact hlive

end Tidy

/-! ### Runs of transfers -/

/-- The dataset has the type with the number, and the type is as said. -/
def HasType (store : Store) (handle typeId : Int) (p : ElementType → Prop) : Prop :=
  ∃ dataset type, store.dataset handle = .ok dataset ∧ dataset.typeId = typeId ∧
    store.registry.typeOf typeId = .ok type ∧ p type

/-- Types that descriptor text describes are registered, datasets are created, and values are
written to datasets and read from them with the types of the datasets. -/
def OwnTyped (store : Store) (call : Call) : Prop :=
  match call with
  | .register type => Descriptor.Accepts type
  | .createDataset _ _ => True
  | .writeSequences handle typeId _ | .readSequences handle typeId _ =>
    store.HasType handle typeId fun type ↦ ∃ element, type = .vlen element
  | .writeArrays handle typeId _ | .readArrays handle typeId _ =>
    store.HasType handle typeId fun type ↦ ∃ element length, type = .array element length
  | .writeStrings handle typeId _ | .readStrings handle typeId _ =>
    store.HasType handle typeId fun type ↦ type = .string
  | .writeRecords layout _ handle typeId _ | .readRecords layout _ handle typeId _ =>
    store.HasType handle typeId fun type ↦ ∃ members size, type = .compound members size ∧
      layout = .ofMembers members size
  | _ => False

/-- Every such call leaves a tidy library tidy, whether it succeeds or is refused. -/
theorem Tidy.next (h : store.Tidy) {call : Call} (hcall : store.OwnTyped call) :
    (call.next store).Tidy := by
  cases call with
  | register type => exact h.register hcall.wellFormed
  | createDataset typeId count => exact h.createDataset typeId count
  | writeSequences handle typeId values =>
    obtain ⟨_, _, _, _, htype, element, rfl⟩ := hcall
    exact h.writeSequences htype handle values
  | readSequences handle typeId count =>
    obtain ⟨_, _, _, _, htype, element, rfl⟩ := hcall
    exact h.readSequences htype handle count
  | writeArrays handle typeId values =>
    obtain ⟨_, _, _, _, htype, element, length, rfl⟩ := hcall
    exact h.writeArrays htype handle values
  | readArrays handle typeId count =>
    obtain ⟨_, _, _, _, htype, element, length, rfl⟩ := hcall
    exact h.readArrays htype handle count
  | writeStrings handle typeId values =>
    obtain ⟨_, _, _, _, htype, rfl⟩ := hcall
    exact h.writeStrings htype handle values
  | readStrings handle typeId count =>
    obtain ⟨_, _, _, _, htype, rfl⟩ := hcall
    exact h.readStrings htype handle count
  | writeRecords layout attached handle typeId records =>
    obtain ⟨_, _, _, _, htype, members, size, rfl, rfl⟩ := hcall
    exact h.writeRecords htype attached handle records
  | readRecords layout attached handle typeId count =>
    obtain ⟨_, _, _, _, htype, members, size, rfl, rfl⟩ := hcall
    exact h.readRecords htype attached handle count
  | _ => exact absurd hcall not_false

theorem Runs.tidy {first last : Store} (h : Runs OwnTyped first last) (hfirst : first.Tidy) :
    last.Tidy := by
  induction h with
  | refl => exact hfirst
  | next _ hcall ih => exact ih.next hcall

/-- Assumes: calls from an empty library on that register types described by descriptor text, create
datasets, and transfer any values with the types of the datasets, and a heap whose addresses fit the
eight bytes they are stored in. After every call, whether it succeeded or was refused, every dataset
can be followed, no block is reached twice, and the live blocks are exactly those that are
reached. -/
theorem Runs.isLive_iff_owned {capacity : Nat} (h : Runs OwnTyped (empty capacity) store)
    (hlimit : store.heap.top ≤ Heap.addressLimit) :
    ∃ owned, store.Leads owned ∧ owned.flatten.Nodup ∧
      ∀ address : Nat, store.heap.isLive address = true ↔ address ∈ owned.flatten := by
  have htidy := h.tidy (tidy_empty capacity)
  obtain ⟨owned, hleads, hlive⟩ := htidy.balanced hlimit
  rw [List.append_nil] at hlive
  exact ⟨owned, hleads, nodup_of_perm htidy.sound.heap hlive, fun _ ↦ isLive_of_perm hlive⟩

/-- A library after a dataset of two sequences of strings was written, a second time with a value
that is refused, and read. -/
def transferred : Store :=
  (Call.readSequences 1 2 2).next <|
    (Call.writeSequences 1 2 (.list [.list [.text "a"], .list [.int 0]])).next <|
      (Call.writeSequences 1 2 (.list [.list [.text "hi", .null], .null])).next <|
        (Call.createDataset 2 2).next <| (Call.register (.vlen .string)).next (empty 0)

/-- What was written is all that is live. -/
theorem Runs.isLive_iff_owned_transferred :
    ∃ owned, transferred.Leads owned ∧ owned.flatten.Nodup ∧
      ∀ address : Nat, transferred.heap.isLive address = true ↔ address ∈ owned.flatten := by
  have hasType (store : Store) (h : (store.datasets[0]?).map (·.typeId) = some 2)
      (htype : (store.registry.typeOf 2).toOption = some (.vlen .string)) :
      store.HasType 1 2 fun type ↦ ∃ element, type = .vlen element := by
    obtain ⟨dataset, hdataset, htypeId⟩ := Option.map_eq_some_iff.1 h
    refine ⟨dataset, .vlen .string, dataset_eq_ok.2 ⟨by decide, hdataset⟩, htypeId, ?_, _, rfl⟩
    rcases htypeOf : store.registry.typeOf 2 with _ | type
    · rw [htypeOf] at htype
      exact absurd htype (by simp [Except.toOption])
    · rw [htypeOf] at htype
      rw [Option.some.inj htype]
  have hruns : Runs OwnTyped (empty 0) transferred := by
    refine .next (.next (.next (.next (.next .refl ?_) trivial) ?_) ?_) ?_
    · exact .inl ⟨"vlen<string>", rfl⟩
    · exact hasType _ (by decide +kernel) (by decide +kernel)
    · exact hasType _ (by decide +kernel) (by decide +kernel)
    · exact hasType _ (by decide +kernel) (by decide +kernel)
  exact Runs.isLive_iff_owned hruns (by decide +kernel)

end Store

end Stowage
