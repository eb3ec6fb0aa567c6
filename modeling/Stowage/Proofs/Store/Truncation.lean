import Stowage.Proofs.Store.FixedStrings
import Stowage.Proofs.Text.Truncation

/-!
# Texts that do not fit

A text in a fixed string is cut at the width of its bytes, wherever it lies: in a field of a
record, as an item of a sequence or as an item of an array. All three are read back alike: the
characters that fit, and U+FFFD behind them when the cut goes through a character
(`Store.showsAt_of_fixedString`). Not every text can be stored and read back, however. Buffers have
a greatest length, and so have string tables and addresses; beyond these, requests are refused
(`Store.refused_of_fixedString`).
-/

set_option autoImplicit false

namespace Stowage

/-- The item at a position of the value with a number. -/
def itemAt? (values : List Value) (number position : Nat) : Option Value :=
  values[number]?.bind fun value ↦ value.items[position]?

/-- Values were granted, and this is the item at a position of the one with a number. -/
def ShowsAt (outcome : Except Fault (List Value)) (number position : Nat) (item : Value) : Prop :=
  ∃ values, outcome = .ok values ∧ itemAt? values number position = some item

section Items

variable {values : List Value} {number position : Nat} {item shown : Value}

/-- Values that were changed one by one show what became of the item. -/
theorem showsAt_map {f : Value → Value}
    (hf : ∀ value, value.items[position]? = some item → (f value).items[position]? = some shown)
    (h : itemAt? values number position = some item) :
    ShowsAt (.ok (values.map f)) number position shown := by
  obtain ⟨value, hvalue, hitem⟩ := Option.bind_eq_some_iff.1 h
  refine ⟨_, rfl, ?_⟩
  rw [itemAt?, List.getElem?_map, hvalue]
  exact hf value hitem

/-- The value with the item is not missing. -/
theorem exists_of_itemAt? (h : itemAt? values number position = some item) :
    ∃ value ∈ values, value ≠ .null := by
  obtain ⟨value, hvalue, hitem⟩ := Option.bind_eq_some_iff.1 h
  refine ⟨value, List.mem_of_getElem? hvalue, ?_⟩
  rintro rfl
  exact absurd hitem (by simp [Value.items, Value.elements?])

/-- An item of a sequence or an array. -/
theorem getElem?_items_list {type : ElementType} {value : Value}
    (h : value.items[position]? = some item) :
    (Value.list (value.items.map type.normalised)).items[position]? =
      some (type.normalised item) := by
  change (value.items.map type.normalised)[position]? = _
  rw [List.getElem?_map, h]
  rfl

/-- A field of a record. -/
theorem RecordLayout.getElem?_items_kept {layout : RecordLayout} {record : Value} {field : Member}
    (hfield : layout.fields[position]? = some field) (h : record.items[position]? = some item) :
    (layout.kept record).items[position]? = some (field.type.normalised item) := by
  change (List.zipWith _ layout.fields record.items)[position]? = _
  rw [List.getElem?_zipWith, hfield, h]

end Items

/-- The text that is read back when the characters of a text that fit are given. -/
theorem ElementType.normalised_fixedString {text : String} (hnul : Char.ofNat 0 ∉ text.toList)
    (width : Nat) :
    (fixedString width).normalised (.text text) =
      .text (String.ofList (Utf8.fitting width text.toList ++
        if Utf8.fitting width text.toList = text.toList ∨
          (Utf8.encode (Utf8.fitting width text.toList)).length = width then []
        else [Char.ofNat 0xFFFD])) := by
  have hcut : ∀ b ∈ (Utf8.ofText text).take width, b ≠ 0 := fun b hb ↦
    Utf8.ne_zero_of_mem_ofText hnul (List.mem_of_mem_take hb)
  change textOf ((Utf8.ofText text).take width) = _
  rw [textOf, Bytes.untilNul_eq_self hcut, Utf8.toTextLossy_take_ofText]

namespace Store

variable {capacity : Nat} {store written : Store} {handle typeId : Int} {values : Value}
  {base : ElementType}

/-! ### Any place -/

section Places

variable {layout : RecordLayout} {records item : Value} {number position : Nat} {field : Member}

/-- A packed field is shown as what becomes of its value. -/
theorem showsAt_unpackRecords (hsound : store.Sound) (haccepted : layout.Accepted)
    {attached : Bool} (hattached : layout.hasVariableFields = true → attached = true)
    (hfield : layout.fields[position]? = some field)
    (hitem : itemAt? records.items number position = some item) {packing : Bytes × List Nat}
    {packed : Store}
    (hpacked : (packRecords layout attached records).run store = (.ok packing, packed)) :
    ShowsAt ((unpackRecords layout attached packing.1 records.items.length).run packed).1
      number position (field.type.normalised item) := by
  obtain ⟨heap, rfl, hpack⟩ := (packRecords_eq_ok haccepted.check).1 hpacked
  have hunpack := RecordLayout.unpack_of_pack haccepted hattached hsound.heap hpack
  rw [unpackRecords, Action.run_reading, haccepted.check, Outcome.ok_bind, hunpack]
  exact showsAt_map (fun _ hrecord ↦ layout.getElem?_items_kept hfield hrecord) hitem

/-- A field written to a dataset is shown as what becomes of its value. -/
theorem showsAt_readRecords (hreachable : Reachable capacity store) (haccepted : layout.Accepted)
    (hfield : layout.fields[position]? = some field)
    (hitem : itemAt? records.items number position = some item)
    (htype : store.registry.typeOf typeId = .ok layout.recordType)
    (hwrite : (writeRecords layout true handle typeId records).run store = (.ok (), written))
    (hlimit : layout.hasVariableFields = true →
      ((readRecords layout true handle typeId records.items.length).run written).2.heap.top ≤
        Heap.addressLimit) :
    ShowsAt ((readRecords layout true handle typeId records.items.length).run written).1
      number position (field.type.normalised item) := by
  have hread : ((readRecords layout true handle typeId records.items.length).run written).1 =
      .ok (records.items.map layout.kept) := by
    cases hvariable : layout.hasVariableFields with
    | false =>
      exact readRecords_of_writeRecords_inline hreachable.sound haccepted hvariable htype hwrite
    | true =>
      exact readRecords_of_writeRecords_variable hreachable haccepted hvariable htype hwrite
        (hlimit hvariable)
  rw [hread]
  exact showsAt_map (fun _ hrecord ↦ layout.getElem?_items_kept hfield hrecord) hitem

/-- An item of an array is shown as what becomes of it. -/
theorem showsAt_placed {length : Int} (hitem : itemAt? values.items number position = some item) :
    ShowsAt (.ok (values.items.map (ElementType.array base length).placed)) number position
      (base.normalised item) := by
  refine showsAt_map (fun value hvalue ↦ ?_) hitem
  rw [ElementType.placed_of_ne_null]
  · exact getElem?_items_list hvalue
  · rintro rfl
    exact absurd hvalue (by simp [Value.items, Value.elements?])

end Places

/-- Assumes: a library after any calls, and a text without U+0000 that was stored in a fixed string
of a width. The longest beginning of the text whose bytes fit is read back, and one U+FFFD behind it
unless it is the whole text or fills the width. This holds for a field of a record of an accepted
layout, unpacked from its buffer or read from a dataset, and, when the width is positive, for an
item of a sequence and for an item of an array. Where addresses are stored they must fit. Sequences
and arrays are read when what is kept of the items of each fits in a string table; when it does
not, the read is refused. -/
theorem showsAt_of_fixedString (hreachable : Reachable capacity store) (width : Nat) {text : String}
    (hnul : Char.ofNat 0 ∉ text.toList) :
    ∃ kept : List Char, Utf8.LongestFit width text.toList kept ∧
      let shown := Value.text (String.ofList (kept ++
        if kept = text.toList ∨ (Utf8.encode kept).length = width then []
        else [Char.ofNat 0xFFFD]))
      (∀ (layout : RecordLayout) (records : Value) (number position : Nat) (field : Member),
        layout.Accepted → layout.fields[position]? = some field →
        field.type = .fixedString width →
        itemAt? records.items number position = some (.text text) →
          (∀ attached buffer addresses packed,
            (layout.hasVariableFields = true → attached = true) →
            (packRecords layout attached records).run store = (.ok (buffer, addresses), packed) →
              ShowsAt ((unpackRecords layout attached buffer records.items.length).run packed).1
                number position shown) ∧
          ∀ handle typeId written, store.registry.typeOf typeId = .ok layout.recordType →
            (writeRecords layout true handle typeId records).run store = (.ok (), written) →
            (layout.hasVariableFields = true →
              ((readRecords layout true handle typeId records.items.length).run
                written).2.heap.top ≤ Heap.addressLimit) →
              ShowsAt ((readRecords layout true handle typeId records.items.length).run written).1
                number position shown) ∧
      (0 < width → ∀ (values : Value) (number position : Nat),
        itemAt? values.items number position = some (.text text) →
          (∀ handle typeId written,
            store.registry.typeOf typeId = .ok (.vlen (.fixedString width)) →
            (writeSequences handle typeId values).run store = (.ok (), written) →
            ((readSequences handle typeId values.items.length).run written).2.heap.top ≤
              Heap.addressLimit →
              (TextsFit width values.items →
                ShowsAt ((readSequences handle typeId values.items.length).run written).1
                  number position shown) ∧
              (¬ TextsFit width values.items →
                ((readSequences handle typeId values.items.length).run written).1 =
                  .error .storage)) ∧
          ∀ handle typeId written (length : Int), 0 < length →
            store.registry.typeOf typeId = .ok (.array (.fixedString width) length) →
            (writeArrays handle typeId values).run store = (.ok (), written) →
              (TextsFit width values.items →
                ShowsAt ((readArrays handle typeId values.items.length).run written).1
                  number position shown) ∧
              (¬ TextsFit width values.items →
                ((readArrays handle typeId values.items.length).run written).1 =
                  .error .storage)) := by
  have hshown := ElementType.normalised_fixedString hnul width
  refine ⟨_, Utf8.longestFit_fitting width text.toList, ?_⟩
  dsimp only
  rw [← hshown]
  refine ⟨fun layout records number position field haccepted hfield htype hitem ↦ ?_,
    fun hpos values number position hitem ↦ ?_⟩
  · rw [← htype]
    exact ⟨fun attached buffer addresses packed hattached hpacked ↦
        showsAt_unpackRecords hreachable.sound haccepted hattached hfield hitem hpacked,
      fun handle typeId written htypeOf hwrite hlimit ↦
        showsAt_readRecords hreachable haccepted hfield hitem htypeOf hwrite hlimit⟩
  · have hwidth : 0 < (width : Int) := Int.natCast_pos.2 hpos
    refine ⟨fun handle typeId written htypeOf hwrite hlimit ↦ ?_,
      fun handle typeId written length hlength htypeOf hwrite ↦ ?_⟩
    · obtain ⟨hgranted, hrefused⟩ :=
        okIff_readSequences hreachable hwidth htypeOf hwrite hlimit
      refine ⟨fun hfits ↦ ?_, hrefused⟩
      obtain ⟨_, hread, rfl⟩ := hgranted hfits
      rw [hread]
      exact showsAt_map (fun _ hvalue ↦ getElem?_items_list hvalue) hitem
    · obtain ⟨⟨hgranted, hrefused⟩, hcount⟩ :=
        okIff_readArrays hreachable ⟨hwidth, hlength, rfl⟩ htypeOf hwrite
      obtain ⟨value, hvalue, hnull⟩ := exists_of_itemAt? hitem
      have hfits := forall_fits_keptItems_iff hcount hvalue hnull
      refine ⟨fun htexts ↦ ?_, fun hnot ↦ hrefused fun hall ↦ hnot (hfits.1 hall)⟩
      obtain ⟨_, hread, rfl⟩ := hgranted (hfits.2 htexts)
      rw [hread]
      exact showsAt_placed hitem

/-- A record with a label of two bytes. -/
def labelLayout : RecordLayout := ⟨[⟨"label", 0, .fixedString 2⟩], 2⟩

/-- A label whose second character takes two bytes. -/
def labels : Value := .list [.list [.text "añ"]]

/-- A library with datasets of one record, one sequence and one array of labels. -/
def labelling : Store :=
  (Call.createDataset 4 1).next <| (Call.createDataset 3 1).next <| (Call.createDataset 2 1).next <|
    (Call.register (.array (.fixedString 2) 1)).next <|
      (Call.register (.vlen (.fixedString 2))).next <|
        (Call.register labelLayout.recordType).next (empty 0)

/-- The second character of the label is cut, in a record, in a sequence and in an array. -/
theorem showsAt_of_fixedString_labels :
    let shown := Value.text (String.ofList ['a', Char.ofNat 0xFFFD])
    (∃ written, (writeRecords labelLayout true 1 2 labels).run labelling = (.ok (), written) ∧
      ShowsAt ((readRecords labelLayout true 1 2 1).run written).1 0 0 shown) ∧
    (∃ written, (writeSequences 2 3 labels).run labelling = (.ok (), written) ∧
      ShowsAt ((readSequences 2 3 1).run written).1 0 0 shown) ∧
    ∃ written, (writeArrays 3 4 labels).run labelling = (.ok (), written) ∧
      ShowsAt ((readArrays 3 4 1).run written).1 0 0 shown := by
  have hreachable : Reachable 0 labelling :=
    .next (.next (.next (.next (.next (.next .refl trivial) trivial) trivial) trivial) trivial)
      trivial
  have haccepted : labelLayout.Accepted := ⟨rfl, by simp [labelLayout]⟩
  obtain ⟨kept, hkept, hrecords, hitems⟩ :=
    showsAt_of_fixedString hreachable 2 (show Char.ofNat 0 ∉ "añ".toList by decide)
  obtain rfl : kept = ['a'] := hkept.unique (Utf8.longestFit_fitting 2 "añ".toList)
  obtain ⟨_, hdataset⟩ := hrecords labelLayout labels 0 0 _ haccepted rfl rfl rfl
  obtain ⟨hsequences, harrays⟩ := hitems (by decide) labels 0 0 rfl
  have hrecordsGranted : ((writeRecords labelLayout true 1 2 labels).run labelling).1 = .ok () :=
    Outcome.toOption_eq_some.1 (by decide +kernel)
  have hsequencesGranted : ((writeSequences 2 3 labels).run labelling).1 = .ok () :=
    Outcome.toOption_eq_some.1 (by decide +kernel)
  have harraysGranted : ((writeArrays 3 4 labels).run labelling).1 = .ok () :=
    Outcome.toOption_eq_some.1 (by decide +kernel)
  have hfits : TextsFit 2 labels.items := by unfold TextsFit; decide +kernel
  refine ⟨⟨_, Prod.ext hrecordsGranted rfl, ?_⟩, ⟨_, Prod.ext hsequencesGranted rfl, ?_⟩,
    _, Prod.ext harraysGranted rfl, ?_⟩
  · exact hdataset 1 2 _ rfl (Prod.ext hrecordsGranted rfl) (by decide +kernel)
  · exact (hsequences 2 3 _ rfl (Prod.ext hsequencesGranted rfl) (by decide +kernel)).1 hfits
  · exact (harrays 3 4 _ 1 (by decide) rfl (Prod.ext harraysGranted rfl)).1 hfits

/-! ### What is refused -/

/-- A list of one list with a text. -/
def singleText (text : String) : Value := .list [.list [.text text]]

/-- A record with a label of a width. -/
def wideLayout (width : Nat) : RecordLayout := ⟨[⟨"label", 0, .fixedString width⟩], width⟩

/-- A library that knows records, sequences and arrays of labels of a width, with a dataset of one
sequence. -/
def widening (width : Nat) : Store :=
  (Call.createDataset 3 1).next <| (Call.register (.array (.fixedString width) 1)).next <|
    (Call.register (.vlen (.fixedString width))).next <|
      (Call.register (wideLayout width).recordType).next (empty 0)

/-- The type of arrays of one label that is too long for a string table. -/
def longType : ElementType := .array (.fixedString StringTable.sizeLimit) 1

/-- A library with a dataset of one array of one long label. -/
def archiving : Store := (Call.createDataset 2 1).next <| (Call.register longType).next (empty 0)

/-- An array of one fixed string is packed without blocks. -/
theorem exists_packArrays_singleText {width typeId : Int} (hwidth : 0 < width)
    (hlimit : width < Buffer.indexLimit) {catalogue : Catalogue}
    (hbase : catalogue.arrayElement typeId = .ok (.fixedString width, 1)) (text : String)
    (heap : Heap) :
    ∃ buffer, (Sequence.packArrays catalogue (singleText text) typeId).run heap =
      (.ok (buffer, []), heap) := by
  have hpart : Sequence.fixedPart width (.text text) =
      .ok (RecordLayout.fixedBytes width (Utf8.ofText text)) :=
    Sequence.fixedPart_eq_ok.2 ⟨hlimit, _, rfl, rfl⟩
  have hparts : [Value.text text].mapM (Sequence.fixedPart width) =
      .ok [RecordLayout.fixedBytes width (Utf8.ofText text)] := by
    rw [Outcome.mapM_cons_ok, hpart]
    rfl
  have hsize : (([Value.list [.text text]].length : Nat) : Int) *
      (ElementType.array (.fixedString width) 1).size = width := by
    change (1 : Int) * (width * 1) = width
    omega
  have hzeroed : Buffer.zeroed width = .ok (Bytes.zeros width.toNat) :=
    Buffer.zeroed_eq_ok.2 ⟨Int.le_of_lt hwidth, hlimit, rfl⟩
  have hfrom : ∃ out, (Sequence.packArraysFrom (.fixedString width) 1
      (ElementType.array (.fixedString width) 1).size 0 [.list [.text text]]
      (Bytes.zeros width.toNat)).run ⟨heap, []⟩ = (.ok out, ⟨heap, []⟩) := by
    simp only [Sequence.packArraysFrom, Value.elements?, Sequence.encode, hparts]
    exact ⟨_, rfl⟩
  obtain ⟨out, hfrom⟩ := hfrom
  rw [Sequence.packArrays, Action.run_ofExcept_bind_ok hbase]
  dsimp only [singleText, Value.elements?]
  rw [hsize, Action.run_ofExcept_bind_ok hzeroed]
  exact ⟨out, Ledger.run_settle_ok hfrom⟩

/-- A text that is too long for a string table can be stored, and is refused when it is read. -/
theorem readArrays_of_long {text : String}
    (hlong : (RecordLayout.keptString StringTable.sizeLimit (.text text)).length =
      StringTable.sizeLimit) :
    ∃ written, (writeArrays 1 2 (singleText text)).run archiving = (.ok (), written) ∧
      ((readArrays 1 2 1).run written).1 = .error .storage := by
  have hreachable : Reachable 0 archiving := .next (.next .refl trivial) trivial
  have hwidth : (0 : Int) < StringTable.sizeLimit := by decide
  have hwellFormed : longType.WellFormed := ⟨hwidth, by decide, rfl⟩
  have htype : archiving.registry.typeOf 2 = .ok longType := rfl
  have hbase := hreachable.closed.arrayElement_eq_ok htype hwellFormed
  obtain ⟨buffer, hpacked⟩ :=
    exists_packArrays_singleText hwidth (by decide) hbase text archiving.heap
  obtain ⟨hlength, _⟩ := Sequence.emitsBuffer_packArrays hwellFormed
    (fun _ ↦ Registry.eq_of_arrayElement htype hwellFormed) (singleText text) _ _ _ _
    hreachable.sound.heap hpacked
  have hpack : (packArrays (singleText text) 2).run archiving = (.ok buffer, archiving) := by
    change (onHeap (Prod.fst <$> Sequence.packArrays archiving.registry.catalogue _ 2)).run _ = _
    rw [onHeap, Action.run_within, Action.run_map, hpacked]
    rfl
  obtain ⟨dataset, hdataset, hdatasetType, hcount⟩ : ∃ dataset, archiving.dataset 1 = .ok dataset ∧
      dataset.typeId = 2 ∧ dataset.data.length = 1 * longType.width :=
    ⟨_, rfl, rfl, Bytes.length_zeros _⟩
  have hfitting : archiving.fitting 1 2 buffer.length = .ok (dataset, longType) :=
    fitting_eq_ok.2 ⟨hdataset, htype, hdatasetType ▸ htype, hlength.trans hcount.symm⟩
  obtain ⟨written, hwrite⟩ : ∃ written,
      (writeArrays 1 2 (singleText text)).run archiving = (.ok (), written) := by
    rw [writeArrays, Action.run_bind_ok (run_arrayType hbase), Action.run_bind_ok hpack]
    exact ⟨_, Action.run_ensuring_of_ok (write_inline rfl hfitting) rfl⟩
  refine ⟨written, hwrite, ?_⟩
  obtain ⟨hread, _⟩ := okIff_readArrays hreachable hwellFormed htype hwrite
  refine hread.refused fun hfits ↦ ?_
  have hshort := (hfits (.list [.text text]) List.mem_cons_self).2 _ List.mem_cons_self
  omega

/-- Beyond the greatest lengths, texts are refused. A fixed string of 2⁶³ bytes is too wide to store
a text in, in a record, a sequence and an array. A text of 2³² bytes is stored in an array, and is
refused when the array is read. A sequence is refused whose block would have an address beyond
2⁶⁴. -/
theorem refused_of_fixedString :
    ((packRecords (wideLayout (Nat.pow 2 63)) true (singleText "a")).run
      (widening (Nat.pow 2 63))).1 = .error .overflow ∧
    ((writeSequences 1 3 (singleText "a")).run (widening (Nat.pow 2 63))).1 = .error .overflow ∧
    ((packArrays (singleText "a") 4).run (widening (Nat.pow 2 63))).1 = .error .overflow ∧
    (∃ written,
      (writeArrays 1 2 (singleText (String.ofList (List.replicate (Nat.pow 2 32) 'a')))).run
        archiving = (.ok (), written) ∧ ((readArrays 1 2 1).run written).1 = .error .storage) ∧
    ((writeSequences 1 3 (singleText "a")).run
      ((Call.allocate (Nat.pow 2 64)).next (widening 1))).1 = .error .storage := by
  refine ⟨by decide +kernel, by decide +kernel, by decide +kernel, readArrays_of_long ?_,
    by decide +kernel⟩
  have htext : RecordLayout.textBytes?
      (.text (String.ofList (List.replicate (Nat.pow 2 32) 'a'))) =
      some (List.replicate (Nat.pow 2 32) 0x61) := congrArg some (Utf8.ofText_replicate _)
  have hletters : ∀ b ∈ List.replicate (Nat.pow 2 32) (0x61 : UInt8), b ≠ 0 := by
    intro b hb
    rw [List.eq_of_mem_replicate hb]
    decide
  rw [RecordLayout.keptString, htext, Option.getD_some, Int.toNat_natCast, StringTable.sizeLimit,
    List.take_replicate, Nat.min_self, Bytes.untilNul_eq_self hletters, List.length_replicate]

end Store

end Stowage
