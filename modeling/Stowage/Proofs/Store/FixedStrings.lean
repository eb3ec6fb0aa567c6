import Stowage.Proofs.Store.Records
import Stowage.Proofs.Store.RoundTrip

/-!
# Fixed strings that fit in string tables

What is captured of fixed strings is kept in a string table, with four bytes for their number and
for the length of each. So fixed strings that were written are read back exactly when those of each
sequence, or of each array, fit in a table; otherwise the read is refused (`okIff_readSequences`,
`okIff_readArrays`). What counts is what is kept of the texts (`RecordLayout.keptString`), not the
width of the fixed strings. The views of the packed elements tell it, all along the way from packing
to capture (`Sequence.emitsBuffer_fixedStrings`, `Captured.captures_text`).
-/

set_option autoImplicit false

namespace Stowage

/-! ### What is kept -/

/-- What is kept of a value in a fixed string of a width: the bytes that fit, up to the first zero
byte. -/
def RecordLayout.keptString (width : Int) (value : Value) : Bytes :=
  Bytes.untilNul (((textBytes? value).getD []).take width.toNat)

open RecordLayout (keptString)

/-- What is kept of the items of each value fits in a string table. -/
def TextsFit (width : Int) (values : List Value) : Prop :=
  ∀ value ∈ values, StringTable.Fits (value.items.map (keptString width))

/-- What is kept of the items of an array: nothing of each of them when the array is missing. -/
def keptItems (width length : Int) : Value → List Bytes
  | .null => List.replicate length.toNat []
  | value => value.items.map (keptString width)

theorem keptItems_of_ne_null (width length : Int) {value : Value} (h : value ≠ .null) :
    keptItems width length value = value.items.map (keptString width) := by
  cases value with
  | null => exact absurd rfl h
  | _ => rfl

/-- The strings of the items in a view. -/
def View.strings (view : View) : List Bytes := view.parts.map View.string

/-- Arrays of one length of which one is there. Missing ones fit in a string table when it does. -/
theorem forall_fits_keptItems_iff {width length : Int} {values : List Value}
    (hlength : ∀ value ∈ values, (keptItems width length value).length = length.toNat)
    {value : Value} (hvalue : value ∈ values) (hnull : value ≠ .null) :
    (∀ value ∈ values, StringTable.Fits (keptItems width length value)) ↔
      TextsFit width values := by
  constructor
  · intro h other hother
    by_cases hmissing : other = .null
    · rw [hmissing]
      exact StringTable.fits_nil
    · rw [← keptItems_of_ne_null width length hmissing]
      exact h other hother
  · intro h other hother
    by_cases hmissing : other = .null
    · have hcount := (h value hvalue).1
      rw [← keptItems_of_ne_null width length hnull, hlength value hvalue] at hcount
      rw [hmissing]
      refine ⟨by rwa [keptItems, List.length_replicate], fun entry hentry ↦ ?_⟩
      rw [List.eq_of_mem_replicate hentry]
      exact Nat.two_pow_pos 32
    · rw [keptItems_of_ne_null width length hmissing]
      exact h other hother

/-! ### Packing -/

namespace Sequence

variable {width : Int} {catalogue : Catalogue} {typeId : Int}

/-- The views of packed fixed strings are those of what is kept. -/
theorem emits_encode_fixedString (hwidth : 0 < width) (value : Value) :
    Emits id (value.items.length * (ElementType.fixedString width).width)
      (fun heap ↦ Contents.ofItems? ((ElementType.fixedString width).contents? heap)
        (ElementType.fixedString width).width value.items.length)
      (fun views ↦ views.map View.string = value.items.map (keptString width))
      (encode (.fixedString width) value) := by
  rw [encode]
  rcases helements : value.elements? with _ | values
  · exact emits_refuse _
  · rw [Value.items_of_elements? helements]
    refine emits_ofExcept fun out hout ↦ ?_
    obtain ⟨parts, hparts, hout⟩ := Outcome.bind_eq_ok.1 hout
    obtain rfl := Except.ok.inj hout
    have hall := Outcome.mapM_eq_ok_iff.1 hparts
    have hlengths : ∀ part ∈ parts, part.length = (ElementType.fixedString width).width := by
      intro part hpart
      obtain ⟨_, _, hfixed⟩ := Outcome.exists_mem_of_forall₂ hall hpart
      obtain ⟨_, bytes, _, rfl⟩ := fixedPart_eq_ok.1 hfixed
      exact RecordLayout.length_fixedBytes (Int.le_of_lt hwidth) bytes
    rw [hall.length_eq]
    refine ⟨Bytes.length_flatten_of_forall hlengths, _,
      fun heap ↦ Contents.ofItems?_flatten (fun _ ↦ rfl) hlengths, ?_⟩
    rw [List.map_map]
    refine (Outcome.map_eq_map_of_forall₂ (hall.imp fun item part hpart ↦ ?_)).symm
    obtain ⟨_, bytes, hbytes, rfl⟩ := fixedPart_eq_ok.1 hpart
    rw [keptString, hbytes]
    exact (RecordLayout.untilNul_fixedBytes (Int.le_of_lt hwidth) bytes).symm

/-- A packed table of sequences of fixed strings shows what becomes of the values, and its views are
those of what is kept. -/
theorem emitsBuffer_fixedStrings (hwidth : 0 < width)
    (hbase : ∀ base, catalogue.sequenceElement typeId = .ok base → base = .fixedString width)
    (values : Value) :
    EmitsBuffer (.vlen (.fixedString width)) values.items.length
      (fun views ↦ (ElementType.vlen (.fixedString width)).Shows values.items views ∧
        views.map View.strings = values.items.map fun value ↦ value.items.map (keptString width))
      (packSequences catalogue values typeId) := by
  have hwellFormed : (ElementType.fixedString width).WellFormed := hwidth
  refine (emitsBuffer_packSequences hwellFormed hbase values).and ?_
  refine emitsBuffer_packSequences_of (joins_map _ _) ⟨fun hviews ↦ ?_, fun hempty ↦ ?_⟩
    (emits_encode_fixedString hwidth) hbase values
  · exact congrArg (fun strings ↦ [strings]) hviews
  · rw [List.map_singleton, List.map_singleton, hempty]
    rfl

/-- The views of zeros in the place of an array of fixed strings are those of empty strings. -/
theorem strings_of_zeros {length : Int}
    (h : (ElementType.array (.fixedString width) length).WellFormed) {views : List View}
    {heap : Heap}
    (hviews : (ElementType.array (.fixedString width) length).contents? heap
      (Bytes.zeros (ElementType.array (.fixedString width) length).width) = some ⟨views, []⟩) :
    views.map View.strings = [List.replicate length.toNat []] := by
  have hzeros : Bytes.zeros (ElementType.array (.fixedString width) length).width =
      (List.replicate length.toNat
        (Bytes.zeros (ElementType.fixedString width).width)).flatten := by
    rw [ElementType.width_array h, Bytes.zeros, Bytes.zeros, List.flatten_replicate_replicate,
      Nat.mul_comm]
  obtain ⟨items, hitems, hcontents⟩ := ElementType.contents?_array_eq_some.1 hviews
  have hparts : ∀ part ∈ List.replicate length.toNat
      (Bytes.zeros (ElementType.fixedString width).width),
      part.length = (ElementType.fixedString width).width := by
    intro part hpart
    rw [List.eq_of_mem_replicate hpart, Bytes.length_zeros]
  have hflatten : Contents.ofItems? ((ElementType.fixedString width).contents? heap) _ _ _ = _ :=
    Contents.ofItems?_flatten (fun _ ↦ rfl) hparts
  rw [List.length_replicate, ← hzeros] at hflatten
  obtain rfl := Option.some.inj (hitems.symm.trans hflatten)
  obtain ⟨rfl, _⟩ := Contents.mk.inj hcontents
  rw [List.map_singleton, View.strings, View.parts, List.map_replicate, List.map_replicate,
    View.string, (Bytes.isZero_zeros _).untilNul_eq]

/-- A packed buffer of arrays of fixed strings shows what becomes of the values, and its views are
those of what is kept. -/
theorem emitsBuffer_fixedStringArrays {length : Int}
    (h : (ElementType.array (.fixedString width) length).WellFormed)
    (hbase : ∀ found, catalogue.arrayElement typeId = .ok found →
      found = (.fixedString width, length)) (values : Value) :
    EmitsBuffer (.array (.fixedString width) length) values.items.length
      (fun views ↦ Places (.array (.fixedString width) length) values.items views ∧
        views.map View.strings = values.items.map (keptItems width length))
      (packArrays catalogue values typeId) := by
  refine (emitsBuffer_packArrays h hbase values).and ?_
  refine emitsBuffer_packArrays_of (joins_map _ _) ⟨fun hvalue hviews ↦ ?_, fun hviews ↦ ?_⟩
    (emits_encode_fixedString h.1) h hbase values
  · rw [List.map_singleton, List.map_singleton, keptItems_of_ne_null width length hvalue]
    exact congrArg (fun strings ↦ [strings]) hviews
  · exact strings_of_zeros h (hviews (.empty 0))

end Sequence

/-! ### Reading -/

/-- What holds of the strings of all views holds of what is kept of all values. -/
theorem forall_strings_iff {views : List View} {values : List Value} {kept : Value → List Bytes}
    (h : views.map View.strings = values.map kept) (holds : List Bytes → Prop) :
    (∀ view ∈ views, holds view.strings) ↔ ∀ value ∈ values, holds (kept value) := by
  rw [← List.forall_mem_map, h, List.forall_mem_map]

theorem givenBack_fixedStrings {width : Int} (values : List Value) :
    (ElementType.vlen (.fixedString width)).givenBack values = values :=
  @ElementType.givenBack_of_isValueType (.vlen (.fixedString width)) trivial values

namespace Store

variable {capacity : Nat} {store written : Store} {handle typeId width : Int} {values : Value}

/-- Assumes: a library after any calls, a granted write of sequences of fixed strings, and addresses
that fit after the read that comes next. The read gives what becomes of the values when what is kept
of their items fits in string tables, and is refused otherwise. -/
theorem okIff_readSequences (hreachable : Reachable capacity store) (hwidth : 0 < width)
    (htype : store.registry.typeOf typeId = .ok (.vlen (.fixedString width)))
    (hwrite : (writeSequences handle typeId values).run store = (.ok (), written))
    (hlimit : ((readSequences handle typeId values.items.length).run written).2.heap.top ≤
      Heap.addressLimit) :
    Outcome.OkIff (TextsFit width values.items) .storage
      (· = values.items.map (ElementType.vlen (.fixedString width)).normalised)
      ((readSequences handle typeId values.items.length).run written).1 := by
  have hwellFormed : (ElementType.fixedString width).WellFormed := hwidth
  have hvlen : (ElementType.vlen (.fixedString width)).WellFormed := hwidth
  have hevolves := rules_evolves.writeSequences (evolves_write handle) typeId values store
  rw [hwrite] at hevolves
  obtain ⟨_, _, hchanged⟩ := hevolves.heap hreachable.sound.heap
  have htop := (rules_evolves.readSequences handle typeId values.items.length written).top_le
    hchanged.sound
  have hsame : written.catalogue = store.catalogue :=
    congrArg Registry.catalogue hevolves.registry_eq
  obtain ⟨table, _, hpack, hrest⟩ := Action.run_bind_eq_ok.1 hwrite
  obtain ⟨addresses, heap, rfl, hpacked⟩ := packSequences_eq_ok hpack
  have hstores := hreachable.stores_of_write hvlen.laid (ElementType.width_pos hvlen)
    (fun _ ↦ ElementType.freesDirectly_vlen rfl) htype
    (Sequence.emitsBuffer_fixedStrings hwidth
      (fun _ ↦ Registry.eq_of_sequenceElement htype hvlen) values) hpacked rfl hrest
    (Nat.le_trans htop hlimit)
  have hbase : written.catalogue.sequenceElement typeId = .ok (.fixedString width) :=
    hsame ▸ sequenceElement_of_packSequences hvlen htype hpacked
  obtain ⟨table, heap, contents, hlength, hcontents, ⟨hshows, hstrings⟩, hrun⟩ :=
    hstores.run_readSequences hvlen hlimit
  have hpayloads : Captured.CapturesPayloads heap (.fixedString width)
      fun views ↦ StringTable.Fits (views.map View.string) :=
    fun _ _ _ hread ↦ Captured.captures_text hwellFormed rfl (Heap.length_of_read hread)
  rw [hrun, TextsFit, ← forall_strings_iff hstrings StringTable.Fits]
  exact (Batch.okIff_capture hwellFormed StringTable.fits_nil hpayloads hbase hlength
    hcontents).bind fun batch hinterpret ↦ ⟨_, hinterpret, (givenBack_fixedStrings _).trans hshows⟩

/-- Once arrays without addresses are fetched, capturing them and interpreting what was captured is
all that is left. -/
theorem readArrays_of_fetch {base : ElementType} {length count : Int} {buffer : Bytes}
    (hinline : base.isVariable = false)
    (hbase : store.catalogue.arrayElement typeId = .ok (base, length))
    (hfetch : (fetch handle typeId (count * (ElementType.array base length).size)).run store =
      (.ok buffer, store)) :
    ((readArrays handle typeId count).run store).1 =
      (Batch.captureArrays store.heap store.catalogue buffer count typeId >>= Batch.interpret) := by
  have hvariable : (ElementType.array base length).isVariable = false := hinline
  rw [readArrays, Action.run_bind_ok (run_arrayType hbase), Action.run_bind_ok hfetch, hvariable]
  exact congrArg Prod.fst (Action.run_bind_ofExcept _ _ _)

/-- The buffer that arrays are packed into. -/
theorem zeroed_of_packArrays {base : ElementType} {length : Int} {catalogue : Catalogue}
    {out : Bytes × List Nat} {heap packed : Heap}
    (hbase : catalogue.arrayElement typeId = .ok (base, length))
    (h : (Sequence.packArrays catalogue values typeId).run heap = (.ok out, packed)) :
    ∃ buffer, Buffer.zeroed (values.items.length * (ElementType.array base length).size) =
      .ok buffer := by
  rw [Sequence.packArrays, Action.run_ofExcept_bind_ok hbase] at h
  dsimp only at h
  split at h
  · exact absurd (Prod.mk.inj h).1 (by simp)
  · next elements helements =>
    obtain ⟨buffer, _, hzeroed, _⟩ := Action.run_bind_eq_ok.1 h
    rw [Value.items_of_elements? helements]
    exact ⟨buffer, (Prod.mk.inj hzeroed).1⟩

/-- Assumes: a library after any calls, and a granted write of arrays of fixed strings. The read
that comes next gives what becomes of the values when what is kept of their items fits in string
tables, and is refused otherwise. -/
theorem okIff_readArrays {length : Int} (hreachable : Reachable capacity store)
    (h : (ElementType.array (.fixedString width) length).WellFormed)
    (htype : store.registry.typeOf typeId = .ok (.array (.fixedString width) length))
    (hwrite : (writeArrays handle typeId values).run store = (.ok (), written)) :
    Outcome.OkIff (∀ value ∈ values.items, StringTable.Fits (keptItems width length value)) .storage
      (· = values.items.map (ElementType.array (.fixedString width) length).placed)
      ((readArrays handle typeId values.items.length).run written).1 ∧
    ∀ value ∈ values.items, (keptItems width length value).length = length.toNat := by
  have hbase := hreachable.closed.arrayElement_eq_ok htype h
  have hevolves := rules_evolves.writeArrays (evolves_write handle) typeId values store
  rw [hwrite] at hevolves
  have hsame : written.catalogue = store.catalogue :=
    congrArg Registry.catalogue hevolves.registry_eq
  rw [writeArrays, Action.run_bind_ok (run_arrayType hbase)] at hwrite
  obtain ⟨buffer, _, hpack, hrest⟩ := Action.run_bind_eq_ok.1 hwrite
  obtain ⟨addresses, heap, rfl, hpacked⟩ := packArrays_eq_ok hpack
  obtain ⟨hlength, hemitted⟩ := Sequence.emitsBuffer_fixedStringArrays h
    (fun _ ↦ Registry.eq_of_arrayElement htype h) values _ _ _ _ hreachable.sound.heap hpacked
  obtain ⟨contents, hcontents, _, hplaces, hstrings⟩ := hemitted.contents
  obtain ⟨zeros, hzeroed⟩ := zeroed_of_packArrays hbase hpacked
  have hzeros : zeros = Bytes.zeros buffer.length := by
    obtain ⟨_, _, rfl⟩ := Buffer.zeroed_eq_ok.1 hzeroed
    rw [ElementType.mul_size h, Int.toNat_natCast, hlength]
  obtain ⟨rfl, hfetch⟩ := fetch_of_write_inline rfl htype hrest (hzeros ▸ hzeroed)
  constructor
  · rw [readArrays_of_fetch rfl (hsame ▸ hbase) hfetch,
      ← forall_strings_iff hstrings StringTable.Fits]
    exact (Batch.okIff_captureArrays h trivial
      (fun raw hraw ↦ Captured.captures_text h.1 rfl hraw) (hsame ▸ hbase) hlength
      hcontents).bind fun batch hinterpret ↦
        ⟨_, hinterpret, (givenBack_fixedStrings _).trans hplaces⟩
  · refine (forall_strings_iff hstrings fun strings ↦ strings.length = length.toNat).1
      fun view hview ↦ ?_
    obtain ⟨k, _, hlooks⟩ := Outcome.exists_mem_of_forall₂
      (ElementType.looksLikeAt_of_contentsEach? hlength hcontents) hview
    obtain ⟨items, hitems, rfl⟩ := hlooks.looksLike.of_array
    exact (List.length_map _).trans (ElementType.length_views hitems)

end Store

end Stowage
