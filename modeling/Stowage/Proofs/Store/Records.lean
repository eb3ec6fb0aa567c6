import Stowage.Proofs.Record.RoundTrip
import Stowage.Proofs.Store.Stored

/-!
# Records are read back from datasets

Records that a transfer wrote to a dataset of the layout's compound type are read back as what
becomes of them, whatever happened in the library before (`readRecords_of_writeRecords`). Records
without addresses are stored as they were packed. Otherwise the dataset takes copies of the texts;
freeing what it held before cannot free them, because that is told from the stored addresses alone,
and these are older (`Reachable.freeEach_direct`).
-/

set_option autoImplicit false

namespace Stowage.Store

variable {store written : Store} {handle typeId : Int} {layout : RecordLayout} {records : Value}

/-! ### The parts of a transfer -/

/-- Records of an accepted layout are packed on the heap. -/
theorem packRecords_eq_ok (hcheck : layout.check = .ok ()) {attached : Bool}
    {packing : Bytes × List Nat} {packed : Store} :
    (packRecords layout attached records).run store = (.ok packing, packed) ↔
      ∃ heap, packed = { store with heap } ∧
        (layout.pack attached records).run store.heap = (.ok packing, heap) := by
  rw [packRecords, Action.run_ofExcept_bind_ok hcheck, onHeap, Action.run_within]
  constructor
  · intro h
    obtain ⟨houtcome, rfl⟩ := Prod.mk.inj h
    exact ⟨_, rfl, Prod.ext houtcome rfl⟩
  · rintro ⟨heap, rfl, hpack⟩
    rw [hpack]

/-- Records are packed, written and reclaimed. -/
theorem writeRecords_eq_ok (hcheck : layout.check = .ok ()) :
    (writeRecords layout true handle typeId records).run store = (.ok (), written) ↔
      ∃ buffer addresses packed,
        (layout.pack true records).run store.heap = (.ok (buffer, addresses), packed) ∧
          (Action.ensuring (write handle typeId buffer)
            (reclaimIf layout.hasVariableFields typeId (lengthOf records) buffer)).run
              { store with heap := packed } = (.ok (), written) := by
  have hchecked : (writeRecords layout true handle typeId records).run store =
      (packRecords layout true records >>= fun packing ↦
        Action.ensuring (write handle typeId packing.1)
          (reclaimIf layout.hasVariableFields typeId (lengthOf records) packing.1)).run store := by
    rw [writeRecords, Action.run_ofExcept_bind_ok hcheck, packRecords, hcheck]
    rfl
  rw [hchecked, Action.run_bind_eq_ok]
  constructor
  · rintro ⟨⟨buffer, addresses⟩, middle, hpacked, hrest⟩
    obtain ⟨packed, rfl, hpack⟩ := (packRecords_eq_ok hcheck).1 hpacked
    exact ⟨buffer, addresses, packed, hpack, hrest⟩
  · rintro ⟨buffer, addresses, packed, hpack, hrest⟩
    exact ⟨(buffer, addresses), _, (packRecords_eq_ok hcheck).2 ⟨packed, rfl, hpack⟩, hrest⟩

/-- Records are fetched, unpacked and reclaimed. -/
theorem run_readRecords (hcheck : layout.check = .ok ()) (count : Int) :
    (readRecords layout true handle typeId count).run store =
      (fetch handle typeId (count * layout.size) >>= fun buffer ↦
        Action.ensuring (.reading fun store ↦ layout.unpack (some store.heap) buffer count)
          (reclaimIf layout.hasVariableFields typeId count buffer)).run store := by
  rw [readRecords, Action.run_ofExcept_bind_ok hcheck]
  rfl

/-! ### Records without addresses -/

/-- Once records without addresses are fetched, unpacking them is all that is left. -/
theorem readRecords_of_fetch (hcheck : layout.check = .ok ())
    (hinline : layout.hasVariableFields = false) {count : Int} {buffer : Bytes}
    (hfetch : (fetch handle typeId (count * layout.size)).run store = (.ok buffer, store)) :
    ((readRecords layout true handle typeId count).run store).1 =
      layout.unpack (some store.heap) buffer count := by
  rw [run_readRecords hcheck, Action.run_bind_ok hfetch, hinline]
  rfl

section Inline

variable {type : ElementType} {dataset : Dataset} {buffer : Bytes}
  (hinline : type.isVariable = false)
  (hfitting : store.fitting handle typeId buffer.length = .ok (dataset, type))

include hinline hfitting

/-- Elements without addresses are stored as they are. -/
theorem write_inline :
    (write handle typeId buffer).run store = (.ok (), { store with
      datasets := store.datasets.modify (handle - 1).toNat
        fun d ↦ { d with data := buffer } }) := by
  have hcopy : (type.copyEach dataset.count buffer).run store.heap = (.ok buffer, store.heap) := by
    rw [ElementType.copyEach, if_neg (by simp [hinline])]
    rfl
  have hfree : (type.freeEach dataset.count dataset.data).run store.heap =
      (.ok (), store.heap) := by
    rw [ElementType.freeEach, if_neg (by simp [hinline])]
    rfl
  exact write_eq hfitting hcopy hfree

/-- Elements without addresses are read as they are stored. -/
theorem read_write_inline :
    (read handle typeId buffer.length).run { store with
      datasets := store.datasets.modify (handle - 1).toNat fun d ↦ { d with data := buffer } } =
      (.ok buffer, { store with
        datasets := store.datasets.modify (handle - 1).toNat
          fun d ↦ { d with data := buffer } }) := by
  obtain ⟨hdataset, htype, hheld, _⟩ := fitting_eq_ok.1 hfitting
  have hfound := dataset_modify hdataset store.heap fun d ↦ { d with data := buffer }
  rw [read_eq (fitting_eq_ok.2 ⟨hfound, htype, hheld, rfl⟩), ElementType.copyEach,
    if_neg (by simp [hinline])]
  rfl

end Inline

/-- Assumes: a granted write of a buffer of elements without addresses. The heap is left alone, and
the buffer is fetched. -/
theorem fetch_of_write_inline {type : ElementType} (hinline : type.isVariable = false)
    (htype : store.registry.typeOf typeId = .ok type) {packed : Heap} {buffer : Bytes} {n : Int}
    (hwrite : (Action.ensuring (write handle typeId buffer)
      (reclaimIf type.isVariable typeId n buffer)).run { store with heap := packed } =
        (.ok (), written)) {length : Int}
    (hzeroed : Buffer.zeroed length = .ok (Bytes.zeros buffer.length)) :
    written.heap = packed ∧ (fetch handle typeId length).run written = (.ok buffer, written) := by
  obtain ⟨middle, hgranted, hreclaim⟩ := Action.run_ensuring_eq_ok hwrite
  rw [hinline] at hreclaim
  obtain ⟨_, rfl⟩ := Prod.mk.inj hreclaim
  rcases hfitting : ({ store with heap := packed } : Store).fitting handle typeId buffer.length with
    fault | ⟨dataset, found⟩
  · exact absurd (Prod.mk.inj (hgranted.symm.trans (write_unfit hfitting))).1 (by simp)
  · obtain rfl := Except.ok.inj ((fitting_eq_ok.1 hfitting).2.1.symm.trans htype)
    obtain ⟨_, rfl⟩ := Prod.mk.inj (hgranted.symm.trans (write_inline hinline hfitting))
    refine ⟨rfl, (Action.run_ofExcept_bind_ok hzeroed _ _).trans ?_⟩
    rw [Bytes.length_zeros]
    exact read_write_inline hinline hfitting

/-- Records without addresses are read back. -/
theorem readRecords_of_writeRecords_inline (hsound : store.Sound) (haccepted : layout.Accepted)
    (hinline : layout.hasVariableFields = false)
    (htype : store.registry.typeOf typeId = .ok layout.recordType)
    (hwrite : (writeRecords layout true handle typeId records).run store = (.ok (), written)) :
    ((readRecords layout true handle typeId records.items.length).run written).1 =
      .ok (records.items.map layout.kept) := by
  have hrecord : layout.recordType.isVariable = false := layout.hasVariableFields_eq ▸ hinline
  obtain ⟨buffer, addresses, packed, hpack, hrest⟩ :=
    (writeRecords_eq_ok haccepted.check).1 hwrite
  rw [layout.hasVariableFields_eq] at hrest
  have hzeroed := RecordLayout.zeroed_length_of_pack haccepted hsound.heap hpack
  have hunpack := RecordLayout.unpack_of_pack haccepted (fun _ ↦ rfl) hsound.heap hpack
  obtain ⟨rfl, hfetch⟩ := fetch_of_write_inline hrecord htype hrest hzeroed
  exact (readRecords_of_fetch haccepted.check hinline hfetch).trans hunpack

/-! ### Records with addresses -/

/-- Records with addresses are read back. -/
theorem readRecords_of_writeRecords_variable {capacity : Nat}
    (hreachable : Reachable capacity store) (haccepted : layout.Accepted)
    (hvariable : layout.hasVariableFields = true)
    (htype : store.registry.typeOf typeId = .ok layout.recordType)
    (hwrite : (writeRecords layout true handle typeId records).run store = (.ok (), written))
    (hlimit :
      ((readRecords layout true handle typeId records.items.length).run written).2.heap.top ≤
        Heap.addressLimit) :
    ((readRecords layout true handle typeId records.items.length).run written).1 =
      .ok (records.items.map layout.kept) := by
  have hsound := hreachable.sound
  have hpos := RecordLayout.size_pos_of_hasVariableFields haccepted.check hvariable
  have hlaid := haccepted.laid (Int.le_of_lt hpos)
  have hwidth : 0 < layout.recordType.width := Int.pos_iff_toNat_pos.1 hpos
  have hevolves :=
    rules_evolves.writeRecords (evolves_write handle) layout true typeId records store
  rw [hwrite] at hevolves
  obtain ⟨_, _, hchanged⟩ := hevolves.heap hsound.heap
  have htop := (rules_evolves.readRecords layout true handle typeId records.items.length
    written).top_le hchanged.sound
  obtain ⟨buffer, addresses, packed, hpack, hrest⟩ :=
    (writeRecords_eq_ok haccepted.check).1 hwrite
  rw [layout.hasVariableFields_eq] at hrest
  have hstores := hreachable.stores_of_write hlaid hwidth
    (fun _ ↦ haccepted.freesDirectly (Int.le_of_lt hpos)) htype
    (haccepted.emitsBuffer_pack (Int.le_of_lt hpos) records) hpack (toNat_lengthOf records) hrest
    (Nat.le_trans htop hlimit)
  rw [run_readRecords haccepted.check, layout.hasVariableFields_eq] at hlimit ⊢
  obtain ⟨out, heap, contents, hout, hcontents, hshows, hrun⟩ := hstores.fetch_ensuring hlaid
    (fun buffer store ↦ layout.unpack (some store.heap) buffer records.items.length)
    (Int.toNat_natCast _) hlimit
  have hunpack := haccepted.unpack_of_contents (Int.le_of_lt hpos) (fun _ ↦ rfl) hout hcontents
  refine (congrArg Prod.fst hrun).trans (hunpack.trans ?_)
  rw [hshows]
  exact congrArg _ (List.map_congr_left fun record _ ↦ layout.normalised_recordType record)

/-! ### Any records -/

/-- Assumes: packed records and a dataset of as many bytes that owns what it leads to. Writing the
records to it is granted. -/
theorem exists_writeRecords (hsound : store.Sound) (haccepted : layout.Accepted)
    (htype : store.registry.typeOf typeId = .ok layout.recordType)
    {dataset : Dataset} (hdataset : store.dataset handle = .ok dataset)
    (hheld : store.registry.typeOf dataset.typeId = .ok layout.recordType)
    (hlength : (dataset.data.length : Int) = records.items.length * layout.size)
    {owned : List Nat} (howns : store.Owns handle owned) {buffer : Bytes} {addresses : List Nat}
    {packed : Heap}
    (hpack : (layout.pack true records).run store.heap = (.ok (buffer, addresses), packed)) :
    ∃ written, (writeRecords layout true handle typeId records).run store = (.ok (), written) := by
  suffices hrest : ∃ written, (Action.ensuring (write handle typeId buffer)
      (reclaimIf layout.hasVariableFields typeId (lengthOf records) buffer)).run
        { store with heap := packed } = (.ok (), written) by
    obtain ⟨written, hrest⟩ := hrest
    exact ⟨written, (writeRecords_eq_ok haccepted.check).2 ⟨_, _, _, hpack, hrest⟩⟩
  cases hvariable : layout.hasVariableFields with
  | false =>
    have hzeroed := RecordLayout.zeroed_length_of_pack haccepted hsound.heap hpack
    obtain ⟨_, _, hzeros⟩ := Buffer.zeroed_eq_ok.1 hzeroed
    have hsame := congrArg List.length hzeros
    rw [Bytes.length_zeros, Bytes.length_zeros, ← hlength, Int.toNat_natCast] at hsame
    have hfitting : ({ store with heap := packed } : Store).fitting handle typeId buffer.length =
        .ok (dataset, layout.recordType) := fitting_eq_ok.2 ⟨hdataset, htype, hheld, hsame⟩
    exact ⟨_, Action.run_ensuring_of_ok
      (write_inline (layout.hasVariableFields_eq ▸ hvariable) hfitting) rfl⟩
  | true =>
    have hpos := RecordLayout.size_pos_of_hasVariableFields haccepted.check hvariable
    have hlaid := haccepted.laid (Int.le_of_lt hpos)
    have hwidth : 0 < layout.recordType.width := Int.pos_iff_toNat_pos.1 hpos
    have hfits := hsound.fits hdataset hheld hlaid
    have hmul := hlaid.mul_size records.items.length
    have hcount : dataset.count = records.items.length := by
      refine Nat.eq_of_mul_eq_mul_right hwidth ?_
      rw [← hfits.length_eq]
      exact Int.ofNat.inj (hlength.trans hmul)
    obtain ⟨hout, hemitted⟩ := haccepted.emitsBuffer_pack (Int.le_of_lt hpos) records _ _ _ _
      hsound.heap hpack
    obtain ⟨contents, hcontents, hblocks, _⟩ := hemitted.contents
    rw [← hvariable, layout.hasVariableFields_eq]
    rw [← hcount] at hout hcontents
    exact exists_write_reclaim hsound hlaid htype hemitted.grown hdataset hheld hout hcontents
      hblocks howns ((toNat_lengthOf records).trans hcount.symm)

/-- Assumes: a library after any calls, an accepted layout without strings of negative width, and a
heap to pack with if some field is a text without a fixed width. Whenever records are packed,
unpacking the buffer gives for each of them the tuple of what becomes of its values
(`RecordLayout.kept`). On a dataset of the layout's compound type, the packed records can be written
when the dataset has their size and owns what it leads to, and whenever they were written, reading
them gives the same tuples, as long as addresses fit. -/
theorem readRecords_of_writeRecords {capacity : Nat} (hreachable : Reachable capacity store)
    (haccepted : layout.Accepted) {attached : Bool}
    (hattached : layout.hasVariableFields = true → attached = true) (records : Value) :
    (∀ buffer addresses packed,
      (packRecords layout attached records).run store = (.ok (buffer, addresses), packed) →
        (unpackRecords layout attached buffer records.items.length).run packed =
          (.ok (records.items.map layout.kept), packed)) ∧
    ∀ handle typeId, store.registry.typeOf typeId = .ok layout.recordType →
      (∀ packing packed dataset owned,
        (packRecords layout attached records).run store = (.ok packing, packed) →
        store.dataset handle = .ok dataset →
        store.registry.typeOf dataset.typeId = .ok layout.recordType →
        (dataset.data.length : Int) = records.items.length * layout.size →
        store.Owns handle owned →
          ∃ written, (writeRecords layout true handle typeId records).run store =
            (.ok (), written)) ∧
      ∀ written, (writeRecords layout true handle typeId records).run store = (.ok (), written) →
        ((readRecords layout true handle typeId records.items.length).run written).2.heap.top ≤
          Heap.addressLimit →
        ((readRecords layout true handle typeId records.items.length).run written).1 =
          .ok (records.items.map layout.kept) := by
  have hsound := hreachable.sound
  refine ⟨fun buffer addresses packed hpacked ↦ ?_, fun handle typeId htype ↦
    ⟨fun packing packed dataset owned hpacked hdataset hheld hlength howns ↦ ?_,
      fun written hwrite hlimit ↦ ?_⟩⟩
  · obtain ⟨heap, rfl, hpack⟩ := (packRecords_eq_ok haccepted.check).1 hpacked
    have hunpack := RecordLayout.unpack_of_pack haccepted hattached hsound.heap hpack
    rw [unpackRecords, Action.run_reading, haccepted.check, Outcome.ok_bind, hunpack]
  · obtain ⟨heap, rfl, hpack⟩ := (packRecords_eq_ok haccepted.check).1 hpacked
    have hwith : (layout.pack true records).run store.heap = (.ok packing, heap) := by
      cases attached with
      | true => exact hpack
      | false => exact RecordLayout.pack_of_detached hpack
    exact exists_writeRecords hsound haccepted htype hdataset hheld hlength howns hwith
  · cases hvariable : layout.hasVariableFields with
    | false => exact readRecords_of_writeRecords_inline hsound haccepted hvariable htype hwrite
    | true =>
      exact readRecords_of_writeRecords_variable hreachable haccepted hvariable htype hwrite hlimit

/-- Cards: a text, a label of no width, a label of three bytes and a number, with gaps. -/
def cardLayout : RecordLayout :=
  ⟨[⟨"note", 8, .string⟩, ⟨"mark", 4, .fixedString 0⟩, ⟨"code", 4, .fixedString 3⟩,
    ⟨"n", 0, .number .int32⟩], 20⟩

/-- A card and an empty card. -/
def cards : Value :=
  .list [.tuple [.text "hi", .text "gone", .text "abcd", .bool true],
    .list [.null, .null, .null, .null]]

/-- A library with a dataset of two cards. -/
def filing : Store :=
  (Call.createDataset 5 2).next <| (Call.register cardLayout.recordType).next (empty 0)

/-- Cards are read back from their buffer and from the dataset. -/
theorem readRecords_of_writeRecords_cards :
    let read := [Value.tuple [.text "hi", .text "", .text "abc", .int 1],
      .tuple [.text "", .text "", .text "", .int 0]]
    (∃ packing packed, (packRecords cardLayout true cards).run filing = (.ok packing, packed) ∧
      (unpackRecords cardLayout true packing.1 2).run packed = (.ok read, packed)) ∧
    ∃ written, (writeRecords cardLayout true 1 5 cards).run filing = (.ok (), written) ∧
      ((readRecords cardLayout true 1 5 2).run written).1 = .ok read := by
  have hreachable : Reachable 0 filing := .next (.next .refl trivial) trivial
  have haccepted : cardLayout.Accepted :=
    ⟨rfl, by simp [cardLayout]⟩
  obtain ⟨hunpack, hstored⟩ :=
    readRecords_of_writeRecords hreachable haccepted (fun _ ↦ rfl) cards
  obtain ⟨hgrant, hread⟩ := hstored 1 5 rfl
  have hpacked : ∃ packing packed,
      (packRecords cardLayout true cards).run filing = (.ok packing, packed) := by
    have hsome : ((packRecords cardLayout true cards).run filing).1.toOption.isSome = true := by
      decide +kernel
    obtain ⟨packing, hpacking⟩ := Option.isSome_iff_exists.1 hsome
    exact ⟨packing, _, Prod.ext (Outcome.toOption_eq_some.1 hpacking) rfl⟩
  obtain ⟨packing, packed, hpack⟩ := hpacked
  have howns : filing.Owns 1 [] :=
    ⟨⟨List.nodup_nil, fun _ ha ↦ absurd ha List.not_mem_nil⟩, _, _, rfl, rfl, rfl⟩
  obtain ⟨written, hwrite⟩ := hgrant packing packed _ [] hpack rfl rfl rfl howns
  refine ⟨⟨packing, packed, hpack, hunpack packing.1 packing.2 packed hpack⟩, written, hwrite, ?_⟩
  obtain rfl := (Prod.mk.inj hwrite).2
  exact hread _ hwrite (by decide +kernel)

end Stowage.Store
