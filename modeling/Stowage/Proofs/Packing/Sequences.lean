import Stowage.Proofs.Packing.Records
import Stowage.Proofs.Payloads.Zeros

/-!
# What packed sequences hold

Whatever elements a sequence has, a successful packing emits them: the payload leads to exactly the
blocks that were added for it, and its items show what becomes of the values (`emits_encode`). The
tables of sequences, arrays and strings are emitted as a whole.
-/

set_option autoImplicit false

namespace Stowage

open Heap (overwrite)

namespace Sequence

variable {values : List Value} {out : Bytes}

/-! ### Elements without addresses -/

theorem encodeNumbers_eq_ok {name : String} {type : NumberType}
    (h : encodeNumbers name type values = .ok out) :
    ∃ parts,
      List.Forall₂ (fun value part ↦ type.store (type.present value) = .ok part) values parts ∧
      out = parts.flatten := by
  have hstored : type.storeAll (values.map type.present) = .ok out := by
    unfold encodeNumbers at h
    split at h
    · exact absurd h (by simp)
    · exact h
  rw [NumberType.storeAll_eq_mapM] at hstored
  obtain ⟨parts, hparts, rfl⟩ := Outcome.map_eq_ok.1 hstored
  exact ⟨parts, List.forall₂_map_left_iff.1 (Outcome.mapM_eq_ok_iff.1 hparts), rfl⟩

theorem resolveConstants_eq_ok {members : List (String × Int)} {found : List Value}
    (h : resolveConstants members values = .ok found) : found = values.map (resolved members) := by
  induction values generalizing found with
  | nil => exact (Except.ok.inj h).symm
  | cons value rest ih =>
    have hcons (first : Value) (h : (do
        let others ← resolveConstants members rest
        Except.ok (first :: others)) = Except.ok found) :
        found = first :: rest.map (resolved members) := by
      obtain ⟨others, hothers, h⟩ := Outcome.bind_eq_ok.1 h
      rw [← ih hothers, Except.ok.inj h]
    rw [resolveConstants.eq_def] at h
    dsimp only at h
    rw [List.map_cons]
    split at h
    · next name =>
      obtain ⟨first, hfirst, h⟩ := Outcome.bind_eq_ok.1 h
      obtain ⟨i, hi, rfl⟩ := Outcome.map_eq_ok.1 hfirst
      have hresolved : resolved members (.text name) = .int i := by simp only [resolved, hi]
      rw [hresolved]
      exact hcons _ h
    · next other hother =>
      have hresolved : resolved members value = value := by
        unfold resolved
        split
        · exact absurd rfl (hother _)
        · rfl
      rw [hresolved]
      exact hcons _ h

theorem shows_numbers {type : NumberType} {parts : List Bytes}
    (h : List.Forall₂ (fun value part ↦ type.store (type.present value) = .ok part) values parts) :
    List.Forall₂ (fun value part ↦ part.length = type.size ∧ type.load part = type.kept value)
      values parts :=
  h.imp fun _ _ hstore ↦ ⟨NumberType.length_of_store hstore, NumberType.load_store hstore⟩

theorem shows_fixedStrings {width : Int} (hwidth : 0 < width) {parts : List Bytes}
    (h : values.mapM (fixedPart width) = .ok parts) :
    List.Forall₂ (fun value part ↦ part.length = width.toNat ∧
        textOf part = (ElementType.fixedString width).normalised value)
      values parts := by
  refine (Outcome.mapM_eq_ok_iff.1 h).imp fun value part hpart ↦ ?_
  obtain ⟨_, bytes, hbytes, rfl⟩ := fixedPart_eq_ok.1 hpart
  refine ⟨RecordLayout.length_fixedBytes (Int.le_of_lt hwidth) bytes, ?_⟩
  rw [ElementType.normalised, hbytes, RecordLayout.textOf_fixedBytes (Int.le_of_lt hwidth)]
  rfl

theorem shows_references {width : Int} {parts : List Bytes}
    (h : values.mapM (referenceBytes? width) = some parts) :
    List.Forall₂ (fun value part ↦ part.length = width.toNat ∧
        Value.bytes part = (ElementType.reference width).normalised value) values parts := by
  refine (Outcome.mapM_eq_some_iff.1 h).imp fun value part hpart ↦ ?_
  obtain ⟨hdata, hlength⟩ := Option.filter_eq_some_iff.1 hpart
  refine ⟨?_, ?_⟩
  · have hwidth : (part.length : Int) = width := by simpa using hlength
    omega
  · rw [ElementType.normalised, hdata]
    rfl

/-! ### All elements -/

/-- Assumes: a well-formed type. A packed payload holds as many elements as there were values, leads
to exactly the blocks that were added, and shows what becomes of the values. -/
theorem emits_encode (type : ElementType) (h : type.WellFormed) (value : Value) :
    Emits id (value.items.length * type.width)
      (fun heap ↦ Contents.ofItems? (type.contents? heap) type.width value.items.length)
      (type.Shows value.items) (encode type value) := by
  rcases helements : value.elements? with _ | values
  · have hrefused : encode type value = Action.refuse .operand := by
      rw [encode.eq_def]
      simp only [helements]
    rw [hrefused]
    exact emits_refuse _
  · rw [Value.items_of_elements? helements, encode.eq_def]
    simp only [helements]
    match type, h with
    | .number type, _ =>
      refine emits_ofExcept fun out hout ↦ ?_
      obtain ⟨parts, hparts, rfl⟩ := encodeNumbers_eq_ok hout
      exact shows_of_parts (fun _ _ ↦ rfl) (shows_numbers hparts)
    | .enum backing members, _ =>
      refine emits_ofExcept fun out hout ↦ ?_
      obtain ⟨found, hfound, hout⟩ := Outcome.bind_eq_ok.1 hout
      obtain rfl := resolveConstants_eq_ok hfound
      obtain ⟨parts, hparts, rfl⟩ := encodeNumbers_eq_ok hout
      exact shows_of_parts (fun _ _ ↦ rfl) (List.forall₂_map_left_iff.1 (shows_numbers hparts))
    | .string, _ =>
      exact emits_map (fun _ ↦ rfl) (emits_collect (joins_shows _) emits_placeText values)
    | .fixedString width, hwidth =>
      refine emits_ofExcept fun out hout ↦ ?_
      obtain ⟨parts, hparts, hout⟩ := Outcome.bind_eq_ok.1 hout
      obtain rfl := Except.ok.inj hout
      exact shows_of_parts (fun _ _ ↦ rfl) (shows_fixedStrings hwidth hparts)
    | .reference width, _ =>
      refine emits_ofExcept fun out hout ↦ ?_
      unfold encodeReferences at hout
      split at hout
      · next parts hparts =>
        obtain rfl := Except.ok.inj hout
        exact shows_of_parts (fun _ _ ↦ rfl) (shows_references hparts)
      · exact absurd hout (by simp)
    | .vlen element, h =>
      have hitems (value : Value) := emits_encode element h value
      exact emits_map (fun _ ↦ rfl) (emits_collect (joins_shows _)
        (emits_placeSequence (wraps_shows element) hitems) values)
    | .compound members size, h =>
      intro before out after hsound hrun
      obtain ⟨⟨⟩, middle, hcheck, hrun⟩ := Action.run_bind_eq_ok.1 hrun
      obtain ⟨haccepted, rfl⟩ := Prod.mk.inj hcheck
      have hpack := (RecordLayout.emitsBuffer_pack h.laid haccepted value).emits
      rw [Value.items_of_elements? helements] at hpack
      exact hpack before out after hsound hrun
    | .array element length, _ => exact emits_refuse _

/-! ### Whole tables -/

section Tables

variable {catalogue : Catalogue} {typeId : Int} {element : ElementType}

/-- Assumes: a catalogue that knows the element type, elements that are emitted, and views of
sequences that tell what those of their items do. A packed table of sequences is emitted. -/
theorem emitsBuffer_packSequences_of {tells : Value → List View → Prop}
    {tells' : List Value → List View → Prop} (hjoins : Joins tells') (hwraps : Wraps tells tells')
    (hencode : ∀ value, Emits id (value.items.length * element.width)
      (fun heap ↦ Contents.ofItems? (element.contents? heap) element.width value.items.length)
      (tells value) (encode element value))
    (hbase : ∀ base, catalogue.sequenceElement typeId = .ok base → base = element)
    (values : Value) :
    EmitsBuffer (.vlen element) values.items.length (tells' values.items)
      (packSequences catalogue values typeId) := by
  refine emitsBuffer_ofExcept_bind fun base hfound ↦ ?_
  obtain rfl := hbase base hfound
  split
  · exact emitsBuffer_refuse _
  · next elements helements =>
    rw [Value.items_of_elements? helements]
    exact emitsBuffer_settle _ (emits_map (fun _ ↦ rfl)
      (emits_collect hjoins (emits_placeSequence hwraps hencode) elements))

/-- Assumes: a well-formed element type, and a catalogue that knows it. A packed table of sequences
is emitted and shows what becomes of the values. -/
theorem emitsBuffer_packSequences (h : element.WellFormed)
    (hbase : ∀ base, catalogue.sequenceElement typeId = .ok base → base = element)
    (values : Value) :
    EmitsBuffer (.vlen element) values.items.length ((ElementType.vlen element).Shows values.items)
      (packSequences catalogue values typeId) :=
  emitsBuffer_packSequences_of (joins_shows _) (wraps_shows element) (emits_encode element h) hbase
    values

theorem emitsBuffer_packStrings (values : Value) :
    EmitsBuffer .string values.items.length (ElementType.string.Shows values.items)
      (packStrings values) := by
  unfold packStrings
  split
  · exact emitsBuffer_refuse _
  · next elements helements =>
    rw [Value.items_of_elements? helements]
    exact emitsBuffer_settle _ (emits_map (fun _ ↦ rfl)
      (emits_collect (joins_shows _) emits_placeText elements))

end Tables

/-! ### Arrays -/

section Arrays

variable {element : ElementType} {length : Int}

/-- What the views of its items tell about an array, the view of the array tells as well, and zeros
tell it about a missing array. -/
structure Fills (element : ElementType) (length : Int) (tells : Value → List View → Prop)
    (tells' : List Value → List View → Prop) : Prop where
  /-- An array tells what its items do. -/
  items : ∀ {value : Value} {views : List View}, value ≠ .null → tells value views →
    tells' [value] [.items views]
  /-- Zeros tell it about a missing array. -/
  zeros : ∀ {views : List View},
    (∀ heap, (ElementType.array element length).contents? heap
      (Bytes.zeros (ElementType.array element length).width) = some ⟨views, []⟩) →
    tells' [.null] views

/-- The views stand for what becomes of values that were written in the place of zeros. -/
def Places (type : ElementType) (values : List Value) (views : List View) : Prop :=
  views.map type.viewed = values.map type.placed

theorem joins_places (type : ElementType) : Joins (Places type) := joins_map type.viewed type.placed

theorem fills_places (h : (ElementType.array element length).WellFormed) :
    Fills element length (fun value ↦ element.Shows value.items)
      (Places (.array element length)) := by
  refine ⟨fun {value views} hvalue hshows ↦ ?_, fun {views} hviews ↦ ?_⟩
  · have hlist : Value.list (views.map element.viewed) =
        Value.list (value.items.map element.normalised) := congrArg Value.list hshows
    rw [Places, List.map_singleton, List.map_singleton, ElementType.placed_of_ne_null _ hvalue]
    exact congrArg (fun shown ↦ [shown]) hlist
  · have hzero := Bytes.isZero_zeros (ElementType.array element length).width
    obtain ⟨view, hview, hlooks⟩ := ElementType.looksLike_of_contents? (hviews (.empty 0))
    obtain rfl : views = [view] := hview
    have hvalue := hlooks.viewed_of_isZero h.laid hzero (Bytes.length_zeros _)
    rw [Places, List.map_singleton, List.map_singleton, hvalue]
    rfl

section Emitting

variable {tells : Value → List View → Prop} {tells' : List Value → List View → Prop}
  (hfills : Fills element length tells tells')
  (hencode : ∀ value, Emits id (value.items.length * element.width)
    (fun heap ↦ Contents.ofItems? (element.contents? heap) element.width value.items.length)
    (tells value) (encode element value))

include hfills

/-- Zeros are emitted in the place of a missing array. -/
theorem emitted_of_zeros {ledger : Ledger} (hsound : ledger.heap.Sound) :
    Emitted (fun heap ↦ (ElementType.array element length).contents? heap) (tells' [.null])
      ledger ledger [] (Bytes.zeros (ElementType.array element length).width) := by
  have hzero := Bytes.isZero_zeros (ElementType.array element length).width
  obtain ⟨views, hviews⟩ := (ElementType.array element length).contents?_of_isZero hzero
  exact .inline hsound ⟨views, hviews, hfills.zeros hviews⟩

include hencode

/-- A packed array is emitted as one element. -/
theorem emitted_of_encode_array (h : (ElementType.array element length).WellFormed) {value : Value}
    (hvalue : value ≠ .null) (hcount : (value.items.length : Int) = length) {bytes : Bytes}
    {before after : Ledger} (hsound : before.heap.Sound)
    (hrun : (encode element value).run before = (.ok bytes, after)) :
    bytes.length = (ElementType.array element length).width ∧ ∃ added,
      Emitted (fun heap ↦ (ElementType.array element length).contents? heap) (tells' [value])
        before after added bytes := by
  obtain ⟨hlength, added, hemitted⟩ := hencode value before bytes after hsound hrun
  have hwidth := ElementType.width_array h
  have hitems : value.items.length = length.toNat := by omega
  rw [hitems] at hlength hemitted
  refine ⟨?_, added, hemitted.wrap fun contents hcontents htells ↦ ?_⟩
  · rw [hwidth, Nat.mul_comm]
    exact hlength
  · exact ⟨_, ElementType.contents?_array_eq_some.2 ⟨contents, hcontents, rfl⟩, rfl,
      hfills.items hvalue htells⟩

/-- Assumes: a well-formed array type, and a buffer with zeros where the next array goes. The array
takes the place of the zeros before the arrays after it are packed; that of a missing value is the
zeros themselves. -/
theorem packArraysFrom_cons_eq_ok (h : (ElementType.array element length).WellFormed) {width : Nat}
    (hwidth : (ElementType.array element length).width = width) {number : Nat} {value : Value}
    {rest : List Value} {out result : Bytes} {before after : Ledger} (hsound : before.heap.Sound)
    (hfits : number * width + width ≤ out.length)
    (hzero : Bytes.cut out (number * width) width = Bytes.zeros width)
    (hrun : (packArraysFrom element length (ElementType.array element length).size number
      (value :: rest) out).run before = (.ok result, after)) :
    ∃ bytes added middle, bytes.length = width ∧
      Emitted (fun heap ↦ (ElementType.array element length).contents? heap) (tells' [value])
        before middle added bytes ∧
      (packArraysFrom element length (ElementType.array element length).size (number + 1) rest
        (overwrite (number * width) bytes out)).run middle = (.ok result, after) := by
  by_cases hnull : value = .null
  · subst hnull
    rw [packArraysFrom] at hrun
    refine ⟨Bytes.zeros width, [], before, Bytes.length_zeros width,
      hwidth ▸ emitted_of_zeros hfills hsound, ?_⟩
    rw [← hzero, Bytes.overwrite_cut hfits]
    exact hrun
  · rw [packArraysFrom] at hrun
    · split at hrun
      · exact absurd (Prod.mk.inj hrun).1 (by simp)
      · next items hitems =>
        split at hrun
        · exact absurd (Prod.mk.inj hrun).1 (by simp)
        · next hcount =>
          obtain ⟨bytes, middle, hbytes, hrest⟩ := Action.run_bind_eq_ok.1 hrun
          rw [← Value.items_of_elements? hitems, Decidable.not_not] at hcount
          obtain ⟨hlength, added, hemitted⟩ :=
            emitted_of_encode_array hfills hencode h hnull hcount hsound hbytes
          rw [hwidth] at hlength
          have hstart := ElementType.mul_size h number
          have hstop := ElementType.mul_size h (number + 1)
          rw [hwidth] at hstart hstop
          have hrange : ((number : Int) + 1) * (ElementType.array element length).size =
              ((number * width : Nat) : Int) + (width : Nat) := by
            have hsucc : ((number + 1 : Nat) : Int) = (number : Int) + 1 := by omega
            rw [← hsucc, hstop, Nat.succ_mul, Int.natCast_add]
          rw [hstart, hrange, Bytes.splice_eq_overwrite hlength hfits] at hrest
          exact ⟨bytes, added, middle, hlength, hemitted, hrest⟩
    · exact hnull

/-- Assumes: a well-formed array type, and a buffer that is zero from the first array on. Packed
arrays take the place of the zeros and lead to exactly the blocks that were added. -/
theorem packArraysFrom_eq_ok (hjoins : Joins tells')
    (h : (ElementType.array element length).WellFormed) {width : Nat}
    (hwidth : (ElementType.array element length).width = width) {number : Nat}
    {values : List Value} {out result : Bytes} {before after : Ledger}
    (hsound : before.heap.Sound) (hfits : number * width ≤ out.length)
    (hzero : out.drop (number * width) = Bytes.zeros (values.length * width))
    (hrun : (packArraysFrom element length (ElementType.array element length).size number values
      out).run before = (.ok result, after)) :
    ∃ new added, result = overwrite (number * width) new out ∧
      new.length = values.length * width ∧
      Emitted (fun heap ↦ Contents.ofItems? ((ElementType.array element length).contents? heap)
        width values.length) (tells' values) before after added new := by
  induction values generalizing number out before with
  | nil =>
    obtain ⟨hresult, rfl⟩ := Prod.mk.inj hrun
    obtain rfl := Except.ok.inj hresult
    exact ⟨[], [], (Bytes.overwrite_nil _ _).symm, (Nat.zero_mul _).symm,
      .inline hsound ⟨[], fun _ ↦ rfl, hjoins.nil⟩⟩
  | cons value rest ih =>
    have hnext : (number + 1) * width = number * width + width := Nat.succ_mul _ _
    have hrestWidth : (rest.length + 1) * width = rest.length * width + width := Nat.succ_mul _ _
    have hlengthOut : out.length = number * width + (rest.length + 1) * width := by
      have hdrop := congrArg List.length hzero
      rw [List.length_drop, Bytes.length_zeros, List.length_cons] at hdrop
      omega
    have hone : number * width + width ≤ out.length := by omega
    have hfirst : Bytes.cut out (number * width) width = Bytes.zeros width := by
      rw [Bytes.cut, hzero, List.length_cons, hrestWidth, Bytes.zeros, List.take_replicate,
        Nat.min_eq_left (by omega), Bytes.zeros]
    obtain ⟨bytes, added, middle, hlength, hhead, hrest⟩ :=
      packArraysFrom_cons_eq_ok hfills hencode h hwidth hsound hone hfirst hrun
    have hbehind : (number + 1) * width = number * width + bytes.length := by rw [hnext, hlength]
    have hwritten : number * width + bytes.length ≤ out.length := by omega
    have hzero' : (overwrite (number * width) bytes out).drop ((number + 1) * width) =
        Bytes.zeros (rest.length * width) := by
      rw [hbehind, Bytes.drop_overwrite hwritten, ← List.drop_drop, hzero, List.length_cons,
        hrestWidth, hlength, Bytes.zeros, Bytes.zeros, List.drop_replicate, Nat.add_sub_cancel]
    obtain ⟨others, added', rfl, hlengths, hothers⟩ := ih hhead.grown.sound
      (by rw [Bytes.length_overwrite hwritten, hbehind]; exact hwritten) hzero' hrest
    refine ⟨bytes ++ others, added ++ added', ?_, ?_, ?_⟩
    · rw [hbehind]
      exact Bytes.overwrite_overwrite_next (by omega)
    · rw [List.length_append, hlength, hlengths, List.length_cons, hrestWidth, Nat.add_comm]
    · exact hhead.cons hlength hothers fun _ _ hviews hviews' ↦ hjoins.append hviews hviews'

end Emitting

end Arrays

/-- Assumes: a well-formed array type, a catalogue that knows it, elements that are emitted, and
views of arrays that tell what those of their items do. A packed buffer of arrays is emitted. -/
theorem emitsBuffer_packArrays_of {catalogue : Catalogue} {typeId : Int} {element : ElementType}
    {length : Int} {tells : Value → List View → Prop} {tells' : List Value → List View → Prop}
    (hjoins : Joins tells') (hfills : Fills element length tells tells')
    (hencode : ∀ value, Emits id (value.items.length * element.width)
      (fun heap ↦ Contents.ofItems? (element.contents? heap) element.width value.items.length)
      (tells value) (encode element value))
    (h : (ElementType.array element length).WellFormed)
    (hbase : ∀ found, catalogue.arrayElement typeId = .ok found → found = (element, length))
    (values : Value) :
    EmitsBuffer (.array element length) values.items.length (tells' values.items)
      (packArrays catalogue values typeId) := by
  refine emitsBuffer_ofExcept_bind fun found hfound ↦ ?_
  obtain rfl := hbase found hfound
  dsimp only
  split
  · exact emitsBuffer_refuse _
  · next elements helements =>
    rw [Value.items_of_elements? helements]
    refine emitsBuffer_ofExcept_bind fun out hout ↦ emitsBuffer_settle _ ?_
    obtain ⟨_, _, rfl⟩ := Buffer.zeroed_eq_ok.1 hout
    rw [ElementType.mul_size h, Int.toNat_natCast]
    intro before result after hsound hrun
    obtain ⟨new, added, rfl, hlength, hemitted⟩ := packArraysFrom_eq_ok hfills hencode hjoins h rfl
      hsound (by rw [Nat.zero_mul]; exact Nat.zero_le _) (by rw [Nat.zero_mul, List.drop_zero]) hrun
    rw [Nat.zero_mul, Bytes.overwrite_zero (by rw [hlength, Bytes.length_zeros])]
    exact ⟨hlength, added, hemitted⟩

/-- Assumes: a well-formed array type, and a catalogue that knows it. A packed buffer of arrays is
emitted and shows what becomes of the values. -/
theorem emitsBuffer_packArrays {catalogue : Catalogue} {typeId : Int} {element : ElementType}
    {length : Int} (h : (ElementType.array element length).WellFormed)
    (hbase : ∀ found, catalogue.arrayElement typeId = .ok found → found = (element, length))
    (values : Value) :
    EmitsBuffer (.array element length) values.items.length
      (Places (.array element length) values.items) (packArrays catalogue values typeId) :=
  emitsBuffer_packArrays_of (joins_places _) (fills_places h) (emits_encode element h.1) h hbase
    values

end Sequence

end Stowage
