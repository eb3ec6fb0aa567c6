import Stowage.Proofs.Packing.Sequences
import Stowage.Proofs.Registry.Classification
import Stowage.Proofs.Sequence.Reading
import Stowage.Proofs.Store.Stored

/-!
# What is written is read back

Values that a transfer wrote to a dataset are read back as what becomes of them
(`ElementType.normalised`), whatever happened in the library before, short of writing to its memory
directly (`readSequences_of_writeSequences`). This holds as long as addresses fit in the eight bytes
they are stored in, and the sizes of blocks in four bytes.

The same is true of arrays (`readArrays_of_writeArrays`), which have their items inline. A missing
array is read back as so many zeros (`ElementType.placed`).
-/

set_option autoImplicit false

namespace Stowage

/-- Freeing blocks does not change their sizes. -/
theorem Heap.BlocksFit.of_release {heap : Heap} {freed : List Nat}
    (h : (heap.release freed).BlocksFit) : heap.BlocksFit := by
  intro block hblock
  have hfits := h (block.releaseIf freed) (List.mem_map_of_mem hblock)
  rwa [Block.length_releaseIf] at hfits

namespace Store

variable {store written : Store} {handle typeId : Int} {base : ElementType} {count : Nat}
  {accepts : List View → Prop}

/-- A granted packing on the heap. -/
theorem onHeap_fst_eq_ok {x : Action Heap (Bytes × List Nat)} {buffer : Bytes} {packed : Store}
    (h : (onHeap ((·.1) <$> x)).run store = (.ok buffer, packed)) :
    ∃ addresses heap, packed = { store with heap } ∧
      x.run store.heap = (.ok (buffer, addresses), heap) := by
  have hrun : (onHeap ((·.1) <$> x)).run store =
      ((x.run store.heap).1.map (·.1), { store with heap := (x.run store.heap).2 }) := by
    rw [onHeap, Action.run_within, Action.run_map]
  obtain ⟨houtcome, rfl⟩ := Prod.mk.inj (hrun.symm.trans h)
  obtain ⟨⟨_, addresses⟩, hpacked, rfl⟩ := Outcome.map_eq_ok.1 houtcome
  exact ⟨addresses, _, rfl, Prod.ext hpacked rfl⟩

/-- Sequences are packed on the heap. -/
theorem packSequences_eq_ok {values : Value} {table : Bytes} {packed : Store}
    (h : (packSequences values typeId).run store = (.ok table, packed)) :
    ∃ addresses heap, packed = { store with heap } ∧
      (Sequence.packSequences store.catalogue values typeId).run store.heap =
        (.ok (table, addresses), heap) :=
  onHeap_fst_eq_ok h

/-- Sequences are packed with the elements of their type only. -/
theorem sequenceElement_of_packSequences {heap packed : Heap} {values : Value}
    {out : Bytes × List Nat}
    (hwellFormed : (ElementType.vlen base).WellFormed)
    (htype : store.registry.typeOf typeId = .ok (.vlen base))
    (h : (Sequence.packSequences store.catalogue values typeId).run heap = (.ok out, packed)) :
    store.catalogue.sequenceElement typeId = .ok base := by
  obtain ⟨found, _, hfound, _⟩ := Action.run_bind_eq_ok.1 h
  have hfound := (Prod.mk.inj hfound).1
  rw [hfound, Registry.eq_of_sequenceElement htype hwellFormed hfound]

/-- Assumes: a dataset of sequences, and addresses that fit after it is read. Reading it captures a
table of sequences that look as accepted, and interprets what was captured; then their blocks are
freed. -/
theorem Stores.run_readSequences (h : store.Stores handle typeId (.vlen base) count accepts)
    (hvlen : (ElementType.vlen base).WellFormed)
    (hlimit : ((Store.readSequences handle typeId count).run store).2.heap.top ≤
      Heap.addressLimit) :
    ∃ table heap contents, table.length = count * (ElementType.vlen base).width ∧
      (ElementType.vlen base).contentsEach? heap count table = some contents ∧
      accepts contents.views ∧ (Store.readSequences handle typeId count).run store =
        (Batch.capture heap store.catalogue table count typeId >>= Batch.interpret,
          { store with heap := heap.release contents.blocks }) := by
  have hgrouped : (Store.readSequences handle typeId count).run store =
      ((Store.fetch handle typeId (count * (ElementType.vlen base).size) >>= fun table ↦
        Action.ensuring (.reading fun store ↦
          Batch.capture store.heap store.catalogue table count typeId)
          (reclaimIf (ElementType.vlen base).isVariable typeId count table)) >>= fun batch ↦
        .ofExcept batch.interpret).run store := Action.run_bind_bind _ _ _ store
  rw [hgrouped, Action.run_bind_ofExcept] at hlimit ⊢
  obtain ⟨table, heap, contents, hlength, hcontents, haccepts, hrun⟩ :=
    h.fetch_ensuring hvlen _ (Int.toNat_natCast count) hlimit
  rw [hrun]
  exact ⟨table, heap, contents, hlength, hcontents, haccepts, rfl⟩

/-- Assumes: a dataset of sequences of a value type. Reading it gives what its views stand for. -/
theorem Stores.readSequences (h : store.Stores handle typeId (.vlen base) count accepts)
    (hwellFormed : base.WellFormed) (hvalue : base.IsValueType)
    (hbase : store.catalogue.sequenceElement typeId = .ok base)
    (hlimit : ((Store.readSequences handle typeId count).run store).2.heap.top ≤ Heap.addressLimit)
    (hfits : ((Store.readSequences handle typeId count).run store).2.heap.BlocksFit) :
    ∃ views, accepts views ∧ ((Store.readSequences handle typeId count).run store).1 =
      .ok (views.map (ElementType.vlen base).viewed) := by
  obtain ⟨table, heap, contents, hlength, hcontents, haccepts, hrun⟩ :=
    h.run_readSequences hwellFormed hlimit
  rw [hrun] at hfits ⊢
  obtain ⟨batch, hcapture, hinterpret⟩ := Batch.capture_of_contents hwellFormed hvalue.isPackable
    hfits.of_release hbase hlength hcontents
  rw [@ElementType.givenBack_of_isValueType (.vlen base) hvalue] at hinterpret
  refine ⟨contents.views, haccepts, ?_⟩
  dsimp only
  rw [hcapture, Outcome.ok_bind, hinterpret]

/-- Assumes: a library after any calls that do not write to memory directly, a sequence type that
descriptor text describes and whose elements are of a value type, a granted write of values to a
dataset, and addresses and blocks that fit after the read that comes next. The read gives, for every
value, what becomes of it. -/
theorem readSequences_of_writeSequences {capacity : Nat}
    (hruns : Runs Managed (empty capacity) store)
    (haccepts : Descriptor.Accepts (.vlen base)) (hvalue : base.IsValueType)
    (htype : store.registry.typeOf typeId = .ok (.vlen base)) {values : Value}
    (hwrite : (writeSequences handle typeId values).run store = (.ok (), written))
    (hlimit : ((readSequences handle typeId values.items.length).run written).2.heap.top ≤
      Heap.addressLimit)
    (hfits : ((readSequences handle typeId values.items.length).run written).2.heap.BlocksFit) :
    ((readSequences handle typeId values.items.length).run written).1 =
      .ok (values.items.map (ElementType.vlen base).normalised) := by
  have hsound := hruns.reachable.sound
  have hvlen : (ElementType.vlen base).WellFormed := haccepts.wellFormed
  have hwellFormed : base.WellFormed := hvlen
  have hevolves := rules_evolves.writeSequences (evolves_write handle) typeId values store
  rw [hwrite] at hevolves
  obtain ⟨_, _, hchanged⟩ := hevolves.heap hsound.heap
  have htop := (rules_evolves.readSequences handle typeId values.items.length written).top_le
    hchanged.sound
  obtain ⟨table, packed, hpack, hrest⟩ := Action.run_bind_eq_ok.1 hwrite
  obtain ⟨addresses, heap, rfl, hpacked⟩ := packSequences_eq_ok hpack
  have hbase := sequenceElement_of_packSequences hvlen htype hpacked
  have hemits := Sequence.emitsBuffer_packSequences hwellFormed
    (fun _ ↦ Registry.eq_of_sequenceElement htype hvlen) values
  obtain ⟨hlength, hemitted⟩ := hemits _ _ _ _ hsound.heap hpacked
  have hstores := stores_of_write hsound hruns.remembers hvlen htype hemitted.grown hlength
    hemitted.contents rfl hrest (Nat.le_trans htop hlimit)
  have hsame : written.catalogue = store.catalogue :=
    congrArg Registry.catalogue hevolves.registry_eq
  rw [← hsame] at hbase
  obtain ⟨views, hviews, hread⟩ := hstores.readSequences hwellFormed hvalue hbase hlimit hfits
  rw [hread, hviews]

/-- A number and a text. -/
def noteType : ElementType :=
  .compound (.cons "n" 0 (.number .int32) (.cons "s" 4 .string .nil)) 12

theorem noteType_isValueType : noteType.IsValueType := by
  intro m hm
  simp only [Members.toList, List.mem_cons, List.not_mem_nil, or_false] at hm
  rcases hm with rfl | rfl <;> rfl

/-- Two notes with something missing, and no notes. -/
def notes : Value :=
  .list [.list [.tuple [.null, .text "hi"], .tuple [.int 7, .null]], .null]

/-- A library with a dataset of two sequences of notes. -/
def noting : Store :=
  (Call.createDataset 4 2).next <| (Call.register (.vlen noteType)).next (empty 0)

/-- Missing numbers, texts and sequences are read back as zero, as empty and as without items. -/
theorem readSequences_of_writeSequences_notes :
    ∃ written, (writeSequences 1 4 notes).run noting = (.ok (), written) ∧
      ((readSequences 1 4 2).run written).1 = .ok
        [.list [.tuple [.int 0, .text "hi"], .tuple [.int 7, .text ""]], .list []] := by
  have hruns : Runs Managed (empty 0) noting :=
    .next (.next .refl fun _ _ ↦ by simp) fun _ _ ↦ by simp
  have haccepts : Descriptor.Accepts (.vlen noteType) :=
    .inl ⟨"vlen<compound \x7b n: int32, s: string \x7d>", by decide +kernel⟩
  have hgranted : ((writeSequences 1 4 notes).run noting).1 = .ok () := by
    have hsome : ((writeSequences 1 4 notes).run noting).1.toOption = some () := by decide +kernel
    rcases houtcome : ((writeSequences 1 4 notes).run noting).1 with fault | ⟨⟩
    · rw [houtcome] at hsome
      exact absurd hsome (by simp [Except.toOption])
    · rfl
  refine ⟨_, Prod.ext hgranted rfl, ?_⟩
  have hread := readSequences_of_writeSequences hruns haccepts noteType_isValueType rfl
    (Prod.ext hgranted rfl) (by decide +kernel) (by unfold Heap.BlocksFit; decide +kernel)
  exact hread

/-! ### Arrays -/

section Arrays

variable {length : Int}

/-- Arrays are packed on the heap. -/
theorem packArrays_eq_ok {values : Value} {buffer : Bytes} {packed : Store}
    (h : (packArrays values typeId).run store = (.ok buffer, packed)) :
    ∃ addresses heap, packed = { store with heap } ∧
      (Sequence.packArrays store.catalogue values typeId).run store.heap =
        (.ok (buffer, addresses), heap) :=
  onHeap_fst_eq_ok h

theorem run_arrayType (hbase : store.catalogue.arrayElement typeId = .ok (base, length)) :
    (arrayType typeId).run store = (.ok (.array base length), store) := by
  rw [arrayType, Action.run_reading, hbase]
  rfl

/-- Assumes: a dataset of arrays of a value type. Reading it gives what its views stand for, and
each of them has as many items as the array type says. -/
theorem Stores.readArrays (h : store.Stores handle typeId (.array base length) count accepts)
    (hwellFormed : (ElementType.array base length).WellFormed) (hvalue : base.IsValueType)
    (htable : base.FitsTable length.toNat)
    (hbase : store.catalogue.arrayElement typeId = .ok (base, length))
    (hlimit : ((Store.readArrays handle typeId count).run store).2.heap.top ≤ Heap.addressLimit)
    (hfits : ((Store.readArrays handle typeId count).run store).2.heap.BlocksFit) :
    ∃ views, accepts views ∧
      (∀ view ∈ views, ∃ items, view = .items items ∧ items.length = length.toNat) ∧
      ((Store.readArrays handle typeId count).run store).1 =
        .ok (views.map (ElementType.array base length).viewed) := by
  have hgrouped : (Store.readArrays handle typeId count).run store =
      ((Store.fetch handle typeId (count * (ElementType.array base length).size) >>= fun buffer ↦
        Action.ensuring (.reading fun store ↦
          Batch.captureArrays store.heap store.catalogue buffer count typeId)
          (reclaimIf (ElementType.array base length).isVariable typeId count buffer)) >>=
        fun batch ↦ .ofExcept batch.interpret).run store :=
    (Action.run_bind_ok (run_arrayType hbase) _).trans (Action.run_bind_bind _ _ _ store)
  rw [hgrouped, Action.run_bind_ofExcept] at hlimit hfits ⊢
  obtain ⟨buffer, heap, contents, hlength, hcontents, haccepts, hrun⟩ :=
    h.fetch_ensuring hwellFormed _ (Int.toNat_natCast count) hlimit
  rw [hrun] at hfits ⊢
  obtain ⟨batch, hcapture, hinterpret⟩ := Batch.captureArrays_of_contents hwellFormed
    hvalue.isPackable hfits.of_release htable hbase hlength hcontents
  rw [@ElementType.givenBack_of_isValueType (.vlen base) hvalue] at hinterpret
  refine ⟨contents.views, haccepts, fun view hview ↦ ?_, ?_⟩
  · have hlooks := ElementType.looksLikeAt_of_contentsEach? hlength hcontents
    obtain ⟨k, _, hlooksAt⟩ := Outcome.exists_mem_of_forall₂ hlooks hview
    obtain ⟨items, hitems, rfl⟩ := hlooksAt.looksLike.of_array
    exact ⟨items.views, rfl, ElementType.length_views hitems⟩
  · dsimp only
    rw [← hinterpret, ← Outcome.ok_bind batch Batch.interpret, ← hcapture]
    rfl

/-- Assumes: a library after any calls that do not write to memory directly, an array type that
descriptor text describes and whose items are of a value type, few and short enough for a string
table when they are text, a granted write of values to a dataset, and addresses and blocks that fit
after the read that comes next. The read gives, for every value, a list of as many items as the type
says: what becomes of the items of the value, or zeros when the value is missing. -/
theorem readArrays_of_writeArrays {capacity : Nat}
    (hruns : Runs Managed (empty capacity) store)
    (haccepts : Descriptor.Accepts (.array base length)) (hvalue : base.IsValueType)
    (htable : base.FitsTable length.toNat)
    (htype : store.registry.typeOf typeId = .ok (.array base length)) {values : Value}
    (hwrite : (writeArrays handle typeId values).run store = (.ok (), written))
    (hlimit : ((readArrays handle typeId values.items.length).run written).2.heap.top ≤
      Heap.addressLimit)
    (hfits : ((readArrays handle typeId values.items.length).run written).2.heap.BlocksFit) :
    ((readArrays handle typeId values.items.length).run written).1 =
        .ok (values.items.map (ElementType.array base length).placed) ∧
      ∀ value ∈ values.items, ∃ items,
        (ElementType.array base length).placed value = .list items ∧
          (items.length : Int) = length := by
  have hsound := hruns.reachable.sound
  have hwellFormed : (ElementType.array base length).WellFormed := haccepts.wellFormed
  have hbase := hruns.reachable.closed.arrayElement_eq_ok htype hwellFormed
  have hevolves := rules_evolves.writeArrays (evolves_write handle) typeId values store
  rw [hwrite] at hevolves
  obtain ⟨_, _, hchanged⟩ := hevolves.heap hsound.heap
  have htop := (rules_evolves.readArrays handle typeId values.items.length written).top_le
    hchanged.sound
  rw [writeArrays, Action.run_bind_ok (run_arrayType hbase)] at hwrite
  obtain ⟨buffer, packed, hpack, hrest⟩ := Action.run_bind_eq_ok.1 hwrite
  obtain ⟨addresses, heap, rfl, hpacked⟩ := packArrays_eq_ok hpack
  have hemits := Sequence.emitsBuffer_packArrays hwellFormed
    (fun _ ↦ Registry.eq_of_arrayElement htype hwellFormed) values
  obtain ⟨hlength, hemitted⟩ := hemits _ _ _ _ hsound.heap hpacked
  have hstores := stores_of_write hsound hruns.remembers hwellFormed htype hemitted.grown hlength
    hemitted.contents (toNat_lengthOf values) hrest (Nat.le_trans htop hlimit)
  have hsame : written.catalogue = store.catalogue :=
    congrArg Registry.catalogue hevolves.registry_eq
  have hbase' : written.catalogue.arrayElement typeId = .ok (base, length) := hsame ▸ hbase
  obtain ⟨views, hviews, hitems, hread⟩ :=
    hstores.readArrays hwellFormed hvalue htable hbase' hlimit hfits
  refine ⟨hread.trans (congrArg Except.ok hviews), fun value hvalue ↦ ?_⟩
  obtain ⟨view, hview, hsame⟩ := List.mem_map.1 (hviews ▸ List.mem_map_of_mem hvalue)
  obtain ⟨items, rfl, hcount⟩ := hitems view hview
  refine ⟨items.map base.viewed, hsame.symm, ?_⟩
  have hpos := hwellFormed.2.1
  rw [List.length_map, hcount]
  omega

end Arrays

/-- A library with a dataset of two pairs of notes. -/
def pairing : Store :=
  (Call.createDataset 4 2).next <| (Call.register (.array noteType 2)).next (empty 0)

/-- Missing numbers and texts are read back as zero and as empty, and so is each note of a missing
pair. -/
theorem readArrays_of_writeArrays_pairs :
    ∃ written, (writeArrays 1 4 notes).run pairing = (.ok (), written) ∧
      ((readArrays 1 4 2).run written).1 = .ok
        [.list [.tuple [.int 0, .text "hi"], .tuple [.int 7, .text ""]],
          .list [.tuple [.int 0, .text ""], .tuple [.int 0, .text ""]]] := by
  have hruns : Runs Managed (empty 0) pairing :=
    .next (.next .refl fun _ _ ↦ by simp) fun _ _ ↦ by simp
  have haccepts : Descriptor.Accepts (.array noteType 2) :=
    .inl ⟨"array<compound \x7b n: int32, s: string \x7d, 2>", by decide +kernel⟩
  have hgranted : ((writeArrays 1 4 notes).run pairing).1 = .ok () := by
    have hsome : ((writeArrays 1 4 notes).run pairing).1.toOption = some () := by decide +kernel
    rcases houtcome : ((writeArrays 1 4 notes).run pairing).1 with fault | ⟨⟩
    · rw [houtcome] at hsome
      exact absurd hsome (by simp [Except.toOption])
    · rfl
  refine ⟨_, Prod.ext hgranted rfl, ?_⟩
  have hread := readArrays_of_writeArrays hruns haccepts noteType_isValueType
    (fun htext ↦ absurd htext Bool.false_ne_true) rfl (Prod.ext hgranted rfl) (by decide +kernel)
    (by unfold Heap.BlocksFit; decide +kernel)
  exact hread.1

end Store

end Stowage
