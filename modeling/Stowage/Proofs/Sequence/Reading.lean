import Stowage.Proofs.Record.Reading
import Stowage.Proofs.Sequence.Strings
import Stowage.Proofs.Sequence.Tables

/-!
# What is captured from stored sequences

Where the contents of their bytes are known, elements are captured, and the captured element is
interpreted as what the values that the views stand for are given back as (`ElementType.givenBack`),
by induction on the type (`Captured.captureItems_of_contents`). The same is said of whole tables
(`Batch.capture_of_contents`). Elements of value types are given back as they are; only references
may spell a table together, and then its entries come in their place. A string table holds only so
many entries of only so many bytes each. Blocks that are small enough make sure that they fit; where
the condition on the views is known exactly (`Captured.Captures`), so it is for whole tables
(`Batch.okIff_capture`, `Batch.okIff_captureArrays`).
-/

set_option autoImplicit false

namespace Stowage

/-- Numbers, constants, strings, records of numbers and strings, and sequences of such elements. -/
def ElementType.IsValueType : ElementType → Prop
  | .number _ | .enum _ _ | .string | .fixedString _ => True
  | .vlen element => element.IsValueType
  | .compound members _ => ∀ m ∈ members.toList, RecordLayout.isFieldType m.type = true
  | .array _ _ | .reference _ => False

/-- Elements that can be packed: value types, references, and sequences of such elements. -/
def ElementType.IsPackable : ElementType → Prop
  | .number _ | .enum _ _ | .string | .fixedString _ | .reference _ => True
  | .vlen element => element.IsPackable
  | .compound members _ => ∀ m ∈ members.toList, RecordLayout.isFieldType m.type = true
  | .array _ _ => False

/-- What items that are stored as the given values are given back as. References are decoded from
their bytes back to back; the items of a sequence are given back by themselves. -/
def ElementType.givenBack : ElementType → List Value → List Value
  | .reference width, values =>
    (Captured.decodeReferences width (values.flatMap fun value ↦ value.data?.getD [])
      values.length).toOption.getD []
  | .vlen element, values => values.map fun
    | .list items => .list (element.givenBack items)
    | value => value
  | _, values => values

theorem ElementType.IsValueType.isPackable {type : ElementType} (h : type.IsValueType) :
    type.IsPackable := by
  match type, h with
  | .number _, _ | .enum _ _, _ | .string, _ | .fixedString _, _ => trivial
  | .vlen element, h => exact @IsValueType.isPackable element h
  | .compound _ _, h => exact h

/-- Values of a value type are given back as they are. -/
theorem ElementType.givenBack_of_isValueType {type : ElementType} (h : type.IsValueType)
    (values : List Value) : type.givenBack values = values := by
  match type, h with
  | .number _, _ | .enum _ _, _ | .string, _ | .fixedString _, _ | .compound _ _, _ => rfl
  | .vlen element, h =>
    rw [givenBack]
    refine List.map_id'' (fun value ↦ ?_) values
    cases value with
    | list items => exact congrArg Value.list (@givenBack_of_isValueType element h items)
    | _ => rfl

theorem ElementType.givenBack_nil (type : ElementType) : type.givenBack [] = [] := by
  cases type with
  | reference width =>
    have hnone : StringTable.exactEntries? [] 0 = none := rfl
    have hnothing : ¬ ((([] : Bytes).length : Int) < 0 * width) := by
      rw [Int.zero_mul]
      exact Int.lt_irrefl 0
    have hdecoded : Captured.decodeReferences width [] 0 = .ok [] := by
      rw [Captured.decodeReferences, hnone]
      dsimp only
      rw [if_neg hnothing]
      rfl
    change (Captured.decodeReferences width [] 0).toOption.getD [] = []
    rw [hdecoded]
    rfl
  | _ => rfl

/-- The number of bytes of every block takes four bytes. -/
def Heap.BlocksFit (heap : Heap) : Prop :=
  ∀ block ∈ heap.blocks, block.data.length < StringTable.sizeLimit

namespace Heap.BlocksFit

variable {heap : Heap} {address : Int} {bytes : Bytes}

theorem length_lt_of_read (h : heap.BlocksFit) {count : Nat}
    (hread : heap.read address count = .ok bytes) : bytes.length < StringTable.sizeLimit := by
  obtain ⟨block, hlocate, rfl⟩ := read_eq_ok hread
  have hblock := h block (locate_eq_ok hlocate).1
  simp only [List.length_take, List.length_drop]
  omega

theorem length_lt_of_readString (h : heap.BlocksFit) (hread : heap.readString address = .ok bytes) :
    bytes.length < StringTable.sizeLimit := by
  obtain ⟨block, hlocate, _, rfl⟩ := readString_eq_ok hread
  have hblock := h block (locate_eq_ok hlocate).1
  have hle := (List.takeWhile_sublist (l := block.data.drop (address - block.start).toNat)
    (· ≠ 0)).length_le
  rw [List.length_drop] at hle
  change (List.takeWhile _ _).length < _
  omega

end Heap.BlocksFit

/-- Elements that are text are few and short enough for a string table. -/
def ElementType.FitsTable (type : ElementType) (count : Nat) : Prop :=
  type.isText = true →
    count < StringTable.sizeLimit ∧ (count ≠ 0 → type.width < StringTable.sizeLimit)

/-- Elements that take up fewer bytes than a block may have fit in a string table. -/
theorem ElementType.fitsTable_of_length_lt {type : ElementType} (h : type.WellFormed) {raw : Bytes}
    {count : Nat} (hlength : raw.length = count * type.width)
    (hraw : raw.length < StringTable.sizeLimit) : type.FitsTable count := by
  intro _
  have hle : count ≤ count * type.width := Nat.le_mul_of_pos_right _ (width_pos h)
  refine ⟨by omega, fun hsome ↦ ?_⟩
  have hwidth : type.width ≤ count * type.width :=
    Nat.le_mul_of_pos_left _ (Nat.pos_of_ne_zero hsome)
  omega

/-- The items of a sequence or an array; a null address has none. -/
def View.parts : View → List View
  | .items views => views
  | _ => []

/-- The string of a text, up to its first zero byte; a null address has the empty one. -/
def View.string : View → Bytes
  | .inline bytes => Bytes.untilNul bytes
  | .text bytes => bytes
  | _ => []

/-! ### Loops over positions -/

/-- Numbers are loaded one at each position. -/
theorem NumberType.loadAll_eq_map (type : NumberType) (number count : Nat) (bytes : Bytes) :
    type.loadAll count (bytes.drop (number * type.size)) = (List.range' number count).map fun k ↦
      type.load (Bytes.cut bytes (k * type.size) type.size) := by
  induction count generalizing number with
  | zero => rfl
  | succ count ih =>
    rw [loadAll, List.drop_drop, ← Nat.succ_mul, ih, List.range'_succ]
    rfl

/-- The cuts at all positions are the bytes back to back. -/
theorem Bytes.flatMap_cut {bytes : Bytes} {width : Nat} (number : Nat) {count : Nat}
    (h : bytes.length = (number + count) * width) :
    (List.range' number count).flatMap (fun k ↦ Bytes.cut bytes (k * width) width) =
      bytes.drop (number * width) := by
  induction count generalizing number with
  | zero => exact (List.drop_of_length_le (Nat.le_of_eq h)).symm
  | succ count ih =>
    rw [List.range'_succ, List.flatMap_cons, ih (number + 1) (by rw [h, Nat.add_right_comm]; rfl),
      Nat.succ_mul, ← List.drop_drop, Bytes.cut, List.take_append_drop]

namespace Captured

variable {heap : Heap} {raw : Bytes} {type element : ElementType}

theorem loadEntries_eq_mapM (number count : Nat) :
    loadEntries raw number count = (List.range' number count).mapM fun (k : Nat) ↦
      Buffer.loadEntry raw (k * entrySize) := by
  induction count generalizing number with
  | zero => rfl
  | succ count ih => rw [loadEntries, ih, List.range'_succ, Outcome.mapM_cons_ok]

/-- Elements are captured as what their views stand for when these fit, and are refused
otherwise. -/
def Captures (heap : Heap) (type : ElementType) (fits : List View → Prop) (raw : Bytes)
    (count : Nat) : Prop :=
  ∀ contents : Contents,
    Contents.ofItems? (type.contents? heap) type.width count raw = some contents →
      Outcome.OkIff (fits contents.views) .storage (fun captured ↦
        interpret type captured = .ok (type.givenBack (contents.views.map type.viewed)))
        (captureItems heap type raw count)

/-- Elements that are read from a block are captured so. -/
def CapturesPayloads (heap : Heap) (type : ElementType) (fits : List View → Prop) : Prop :=
  ∀ (raw : Bytes) (count address : Nat),
    heap.read address ((count * type.width : Nat) : Int) = .ok raw →
      Captures heap type fits raw count

/-! ### Elements without addresses -/

/-- Numbers are decoded as what their views stand for. -/
theorem decodeNumbers_of_looksLikeAt {backing : NumberType} (hwidth : type.width = backing.size)
    (hinline : ∀ bytes, type.contents? heap bytes = some (.inline bytes))
    (hviewed : ∀ bytes, type.viewed (.inline bytes) = backing.load bytes) {count : Nat}
    (hlength : raw.length = count * type.width) {views : List View}
    (hlooks : List.Forall₂ (type.LooksLikeAt heap raw) (List.range' 0 count) views) :
    decodeNumbers backing raw count = .ok (views.map type.viewed) := by
  have hload := backing.loadAll_eq_map 0 count raw
  rw [Nat.zero_mul, List.drop_zero] at hload
  rw [decodeNumbers, if_neg, if_neg, Int.toNat_natCast, hload]
  · refine congrArg Except.ok (Outcome.map_eq_map_of_forall₂ (hlooks.imp fun k view hview ↦ ?_))
    obtain rfl := hview.looksLike.contents_inj (hinline _)
    rw [hviewed, hwidth]
  · omega
  · rw [hlength, hwidth, Int.natCast_mul]
    omega

/-! ### Strings -/

/-- A string that can be followed is the one of its view, which stands for its text. -/
theorem stringAt?_of_looksLikeAt (h : type.WellFormed) (htext : type.isText = true) {k : Nat}
    {view : View} (hview : type.LooksLikeAt heap raw k view) :
    stringAt? heap type raw k = some view.string ∧
      type.viewed view = .text (Utf8.toTextLossy view.string) := by
  cases type with
  | fixedString width =>
    obtain rfl := hview.looksLike.contents_inj rfl
    have hcut : Bytes.slice raw (k * width) ((k + 1) * width) =
        Bytes.cut raw (k * (ElementType.fixedString width).width)
          (ElementType.fixedString width).width := by
      refine Bytes.slice_eq_cut raw (ElementType.mul_size h k) ?_
      rw [← Nat.succ_mul]
      exact ElementType.mul_size h (k + 1)
    rw [stringAt?, hcut]
    exact ⟨rfl, rfl⟩
  | string =>
    have hthere : stringAt? heap .string raw k = stringThere? heap (Bytes.toNat
        (Bytes.cut raw (k * ElementType.string.width) ElementType.string.width)) := rfl
    rw [hthere, stringThere?]
    rcases hview.looksLike.of_string with ⟨hnull, rfl⟩ | ⟨hnull, text, hread, rfl⟩
    · rw [if_pos hnull]
      exact ⟨rfl, rfl⟩
    · rw [if_neg hnull, hread]
      exact ⟨rfl, rfl⟩
  | _ => exact absurd htext Bool.false_ne_true

/-- Strings are captured as the texts that their views stand for when they fit in a string table,
and are refused otherwise. -/
theorem captures_text (h : type.WellFormed) (htext : type.isText = true) {count : Nat}
    (hlength : raw.length = count * type.width) :
    Captures heap type (fun views ↦ StringTable.Fits (views.map View.string)) raw count := by
  intro contents hcontents
  have hlooks := ElementType.looksLikeAt_of_contentsEach? hlength hcontents
  have hviews : contents.views.length = count := by rw [← hlooks.length_eq, List.length_range']
  have hstrings : strings heap type raw count = contents.views.map View.string := by
    rw [strings, List.range_eq_range']
    refine Outcome.map_eq_map_of_forall₂ (hlooks.imp fun k view hview ↦ ?_)
    rw [(stringAt?_of_looksLikeAt h htext hview).1, Option.getD_some]
  have htexts : (contents.views.map View.string).map (fun text ↦ .text (Utf8.toTextLossy text)) =
      contents.views.map type.viewed := by
    rw [List.map_map]
    refine List.map_congr_left fun view hview ↦ ?_
    obtain ⟨k, _, hlooksAt⟩ := Outcome.exists_mem_of_forall₂ hlooks hview
    exact (stringAt?_of_looksLikeAt h htext hlooksAt).2.symm
  have hback (values : List Value) : type.givenBack values = values := by
    cases type with
    | fixedString _ | string => rfl
    | _ => exact absurd htext Bool.false_ne_true
  have hsize : count * type.size ≤ raw.length := by rw [ElementType.mul_size h, hlength]
  rw [captureItems_of_isText heap htext hsize, hstrings]
  have helement := okIff_ofStrings (contents.views.map View.string)
    ((List.range count).all fun k ↦ (stringAt? heap type raw k).isSome) count
  refine ⟨fun hfits ↦ ?_, helement.refused⟩
  obtain ⟨captured, hcaptured, rfl⟩ := helement.granted hfits
  refine ⟨_, hcaptured, interpret_of_decode ?_ ?_⟩
  · have hcount : ((contents.views.map View.string).length : Int) = count := by
      rw [List.length_map, hviews]
    rw [← hcount, decode_stringElement htext _ hfits, htexts, hback]
  · rw [hback, List.length_map, hviews]
    rfl

/-- Few strings of blocks that fit, or of no great width, fit in a string table. -/
theorem fits_views (h : type.WellFormed) (htext : type.isText = true) (hfits : heap.BlocksFit)
    {count : Nat} (htable : type.FitsTable count) {views : List View}
    (hlooks : List.Forall₂ (type.LooksLikeAt heap raw) (List.range' 0 count) views) :
    StringTable.Fits (views.map View.string) := by
  obtain ⟨hcount, hwide⟩ := htable htext
  have hviews : views.length = count := by rw [← hlooks.length_eq, List.length_range']
  refine ⟨by rwa [List.length_map, hviews], List.forall_mem_map.2 fun view hmem ↦ ?_⟩
  obtain ⟨k, _, hview⟩ := Outcome.exists_mem_of_forall₂ hlooks hmem
  cases type with
  | fixedString width =>
    obtain rfl := hview.looksLike.contents_inj rfl
    have hsome : count ≠ 0 := hviews ▸ (List.length_pos_of_mem hmem).ne'
    have hle := (List.takeWhile_sublist (l := Bytes.cut raw
      (k * (ElementType.fixedString width).width) (ElementType.fixedString width).width)
      (· ≠ 0)).length_le
    rw [Bytes.length_cut hview.stop_le] at hle
    exact Nat.lt_of_le_of_lt hle (hwide hsome)
  | string =>
    rcases hview.looksLike.of_string with ⟨_, rfl⟩ | ⟨_, text, hread, rfl⟩
    · exact Nat.two_pow_pos 32
    · exact hfits.length_lt_of_readString hread
  | _ => exact absurd htext Bool.false_ne_true

/-! ### References -/

/-- As many references as there are bytes for are always decoded. -/
theorem decodeReferences_eq_ok {width : Int} {count : Nat}
    (hlength : raw.length = count * width.toNat) :
    ∃ values, decodeReferences width raw count = .ok values ∧ values.length = count := by
  rcases hexact : StringTable.exactEntries? raw count with _ | entries
  · have hneeded : (count : Int) * width ≤ count * (width.toNat : Int) :=
      Int.mul_le_mul_of_nonneg_left (Int.self_le_toNat width) (Int.natCast_nonneg count)
    have henough : ¬ (raw.length : Int) < count * width := by
      rw [hlength, Int.natCast_mul]
      omega
    refine ⟨_, by rw [decodeReferences, hexact]; exact if_neg henough, ?_⟩
    rw [List.length_map, List.length_range, Int.toNat_natCast]
  · refine ⟨entries.map .bytes, by rw [decodeReferences, hexact], ?_⟩
    rw [List.length_map]
    exact Int.ofNat_inj.1 (StringTable.exactEntries?_eq_some_iff.1 hexact).2

/-- References are captured as their bytes back to back. -/
theorem captureItems_reference {width : Int} {count : Nat}
    (hlength : raw.length = count * (ElementType.reference width).width) {views : List View}
    (hlooks : List.Forall₂ ((ElementType.reference width).LooksLikeAt heap raw)
      (List.range' 0 count) views) :
    ∃ captured, captureItems heap (.reference width) raw count = .ok captured ∧
      interpret (.reference width) captured = .ok ((ElementType.reference width).givenBack
        (views.map (ElementType.reference width).viewed)) := by
  have hviews : views.length = count := by
    rw [← hlooks.length_eq, List.length_range']
  have hbytes : (views.map (ElementType.reference width).viewed).flatMap
      (fun value ↦ value.data?.getD []) = raw := by
    have hcuts := Bytes.flatMap_cut 0 (hlength.trans (by rw [Nat.zero_add]))
    rw [Nat.zero_mul, List.drop_zero] at hcuts
    refine Eq.trans ?_ hcuts
    rw [List.flatMap_def, List.flatMap_def, List.map_map]
    refine congrArg List.flatten (Outcome.map_eq_map_of_forall₂ ?_).symm
    refine hlooks.imp fun k view hview ↦ ?_
    obtain rfl := hview.looksLike.contents_inj rfl
    rfl
  obtain ⟨values, hvalues, hcount⟩ := @decodeReferences_eq_ok raw width count hlength
  have hback : (ElementType.reference width).givenBack
      (views.map (ElementType.reference width).viewed) = values := by
    rw [ElementType.givenBack, hbytes, List.length_map, hviews, hvalues]
    rfl
  rw [hback]
  exact ⟨.mk raw count none none, rfl, interpret_of_decode hvalues (congrArg _ hcount)⟩

/-! ### Records -/

/-- Records are captured as what their views stand for: decoded at once when they hold addresses,
and from the captured bytes otherwise. -/
theorem captureItems_compound {members : Members} {size : Int}
    (h : (ElementType.compound members size).WellFormed)
    (hfields : ∀ m ∈ members.toList, RecordLayout.isFieldType m.type = true) {count : Nat}
    (hlength : raw.length = count * (ElementType.compound members size).width) {contents : Contents}
    (hcontents : Contents.ofItems? ((ElementType.compound members size).contents? heap)
      (ElementType.compound members size).width count raw = some contents) :
    ∃ captured, captureItems heap (.compound members size) raw count = .ok captured ∧
      interpret (.compound members size) captured =
        .ok (contents.views.map (ElementType.compound members size).viewed) := by
  have hcheck := RecordLayout.check_of_wellFormed h hfields
  have hviews : contents.views.length = count := by
    rw [← (ElementType.looksLikeAt_of_contentsEach? hlength hcontents).length_eq,
      List.length_range']
  rw [captureItems]
  by_cases hvariable : members.isVariable = true
  · have hunpack := RecordLayout.unpack_of_contents (some heap) h.laid hfields (fun _ ↦ rfl)
      hlength hcontents
    rw [if_pos hvariable, decodeLive, hcheck, Outcome.ok_bind, hunpack, Outcome.ok_bind]
    refine ⟨_, rfl, interpret_of_decode ?_ ?_⟩
    · rw [decode, if_neg]
      rw [List.length_map, hviews]
      exact fun hne ↦ hne rfl
    · rw [List.length_map, hviews]
      rfl
  · have hunpack := RecordLayout.unpack_of_contents none h.laid hfields
      (fun hholds ↦ absurd hholds hvariable) hlength hcontents
    rw [if_neg hvariable]
    refine ⟨_, rfl, interpret_of_decode ?_ ?_⟩
    · change decodeRecords (.ofMembers members size) raw count = _
      rw [decodeRecords, hcheck, Outcome.ok_bind, hunpack]
    · rw [List.length_map, hviews]
      rfl

/-! ### Sequences -/

/-- Captured elements are interpreted one after another. -/
theorem interpretAll_eq_ok {base : ElementType} {parts : List Captured} {lists : List Value}
    (h : List.Forall₂ (fun part value ↦ ∃ values, interpret base part = .ok values ∧
      value = .list values) parts lists) : interpretAll base parts = .ok lists := by
  induction h with
  | nil => rfl
  | cons hhead _ ih =>
    obtain ⟨values, hvalues, rfl⟩ := hhead
    unfold interpret at hvalues
    rw [interpretAll, hvalues, ih]

/-- The captured element is interpreted as what the items of the value are given back as. -/
def Yields (base : ElementType) (captured : Captured) (value : Value) : Prop :=
  ∃ values, interpret base captured = .ok (base.givenBack values) ∧ value = .list values

theorem interpretAll_of_yields {base : ElementType} {parts : List Captured} {values : List Value}
    (h : List.Forall₂ (Yields base) parts values) :
    interpretAll base parts = .ok ((ElementType.vlen base).givenBack values) := by
  refine interpretAll_eq_ok (List.forall₂_map_right_iff.2 (h.imp fun part value hvalue ↦ ?_))
  obtain ⟨items, hitems, rfl⟩ := hvalue
  exact ⟨_, hitems, rfl⟩

/-- Assumes: a well-formed type, and blocks that fit. When elements that fit in a string table are
captured, so are those that are read from a block. -/
theorem capturesPayloads_of_blocksFit (h : type.WellFormed) (hfits : heap.BlocksFit)
    (hitems : ∀ {raw : Bytes} {count : Nat}, type.FitsTable count →
      raw.length = count * type.width → ∀ {contents : Contents},
        Contents.ofItems? (type.contents? heap) type.width count raw = some contents →
          ∃ captured, captureItems heap type raw count = .ok captured ∧
            interpret type captured = .ok (type.givenBack (contents.views.map type.viewed))) :
    CapturesPayloads heap type fun _ ↦ True := by
  intro raw count address hread contents hcontents
  have hlength := Heap.length_of_read hread
  have htable := ElementType.fitsTable_of_length_lt h hlength (hfits.length_lt_of_read hread)
  obtain ⟨captured, hcaptured, hinterpret⟩ := hitems htable hlength hcontents
  exact .of_ok trivial hcaptured hinterpret

section Entries

variable {fits : List View → Prop} (h : element.WellFormed) (hnil : fits [])
  (helement : CapturesPayloads heap element fits)

include h hnil helement

/-- A sequence that can be followed is captured as the items of its view, when these fit. -/
theorem captureEntry_of_looksLike {entry : Bytes} {view : View}
    (hlooks : (ElementType.vlen element).LooksLike heap entry view) :
    Outcome.OkIff (fits view.parts) .storage
      (Yields element · ((ElementType.vlen element).viewed view))
      (captureEntry heap element.size (captureItems heap element)
        (Bytes.toNat (Bytes.cut entry 0 8)) (Bytes.toNat (Bytes.cut entry 8 8))) := by
  have hnothing : interpret element empty = .ok (element.givenBack []) :=
    congrArg Except.ok element.givenBack_nil.symm
  rcases hlooks.of_vlen with ⟨hnull, rfl⟩ | ⟨hnull, payload, items, hread, hitems, rfl⟩
  · exact .of_ok hnil (if_pos (.inr hnull)) ⟨[], hnothing, rfl⟩
  · generalize Bytes.toNat (Bytes.cut entry 0 8) = length at *
    generalize Bytes.toNat (Bytes.cut entry 8 8) = address at *
    by_cases hempty : length = 0
    · subst hempty
      obtain rfl := Option.some.inj hitems
      exact .of_ok hnil (if_pos (.inl rfl)) ⟨[], hnothing, rfl⟩
    · have hpayload := Heap.length_of_read hread
      have hpos : 0 < payload.length := by
        rw [hpayload]
        exact Nat.mul_pos (Nat.pos_of_ne_zero hempty) (ElementType.width_pos h)
      have hcopy : copyPayload heap element.size length address = .ok payload := by
        rw [copyPayload, if_pos (ElementType.size_pos h), copyWith, ElementType.mul_size h, hread]
      have hsome : payload.isEmpty = false := by
        rw [List.isEmpty_eq_false_iff, ← List.length_pos_iff]
        exact hpos
      rw [captureEntry, if_neg (by simp [hempty, hnull]), hcopy, Outcome.ok_bind, hsome,
        if_neg Bool.false_ne_true]
      exact (helement payload length address hread items hitems).imp
        fun captured hinterpret ↦ ⟨_, hinterpret, rfl⟩

/-- The length and address at every position of a table are captured as what its view stands for. -/
theorem forall₂_captureEntry {numbers : List Nat} {views : List View}
    (hlooks : List.Forall₂ ((ElementType.vlen element).LooksLikeAt heap raw) numbers views) :
    List.Forall₂ (fun (k : Nat) view ↦ ∃ entry, Buffer.loadEntry raw (k * entrySize) = .ok entry ∧
      Outcome.OkIff (fits view.parts) .storage
        (Yields element · ((ElementType.vlen element).viewed view))
        (captureEntry heap element.size (captureItems heap element) entry.1 entry.2))
      numbers views := by
  refine hlooks.imp fun k view hview ↦ ?_
  have hload := Buffer.loadEntry_eq hview.stop_le
  rw [ElementType.width_vlen, Int.natCast_mul] at hload
  exact ⟨_, hload, captureEntry_of_looksLike h hnil helement hview.looksLike⟩

end Entries

/-- Sequences of sequences are captured part by part. -/
theorem captureItems_vlen (h : element.WellFormed)
    (helement : CapturesPayloads heap element fun _ ↦ True) {count : Nat}
    (hlength : raw.length = count * (ElementType.vlen element).width) {contents : Contents}
    (hcontents : Contents.ofItems? ((ElementType.vlen element).contents? heap)
      (ElementType.vlen element).width count raw = some contents) :
    ∃ captured, captureItems heap (.vlen element) raw count = .ok captured ∧
      interpret (.vlen element) captured = .ok ((ElementType.vlen element).givenBack
        (contents.views.map (ElementType.vlen element).viewed)) := by
  have hlooks := ElementType.looksLikeAt_of_contentsEach? hlength hcontents
  obtain ⟨entries, hentries, hall⟩ :=
    Outcome.exists_mapM (forall₂_captureEntry h trivial helement hlooks)
  obtain ⟨parts, hparts, hyields⟩ := (Outcome.OkIff.mapM hall).granted fun _ _ ↦ trivial
  have hviews : contents.views.length = count := by
    rw [← hlooks.length_eq, List.length_range']
  refine ⟨.mk raw count none (some parts), ?_, interpret_of_decode ?_ ?_⟩
  · rw [captureItems, Int.toNat_natCast, loadEntries_eq_mapM, hentries, Outcome.ok_bind, hparts,
      Outcome.ok_bind]
  · rw [decode, interpretAll_of_yields (List.forall₂_map_right_iff.2 hyields), if_neg]
    rw [hyields.length_eq, hviews]
    exact fun hne ↦ hne rfl
  · rw [ElementType.givenBack, List.length_map, List.length_map, hviews]
    rfl

/-- Assumes: a well-formed type whose elements can be packed, blocks that fit, and elements whose
contents are known, few and short enough for a string table when they are text. They are captured as
what the values that their views stand for are given back as. -/
theorem captureItems_of_contents (type : ElementType) (h : type.WellFormed)
    (hpackable : type.IsPackable) (hfits : heap.BlocksFit) {raw : Bytes} {count : Nat}
    (htable : type.FitsTable count) (hlength : raw.length = count * type.width)
    {contents : Contents}
    (hcontents : Contents.ofItems? (type.contents? heap) type.width count raw = some contents) :
    ∃ captured, captureItems heap type raw count = .ok captured ∧
      interpret type captured = .ok (type.givenBack (contents.views.map type.viewed)) := by
  have hlooks := ElementType.looksLikeAt_of_contentsEach? hlength hcontents
  have hviews : (contents.views.length : Int) = count := by
    rw [← hlooks.length_eq, List.length_range']
  match type, h, hpackable with
  | .number type, _, _ =>
    refine ⟨.mk raw count none none, rfl, interpret_of_decode ?_ ?_⟩
    · exact decodeNumbers_of_looksLikeAt rfl (fun _ ↦ rfl) (fun _ ↦ rfl) hlength hlooks
    · rw [@ElementType.givenBack_of_isValueType (.number type) trivial, List.length_map, hviews]
      rfl
  | .enum backing members, _, _ =>
    refine ⟨.mk raw count none none, rfl, interpret_of_decode ?_ ?_⟩
    · exact decodeNumbers_of_looksLikeAt rfl (fun _ ↦ rfl) (fun _ ↦ rfl) hlength hlooks
    · rw [@ElementType.givenBack_of_isValueType (.enum backing members) trivial, List.length_map,
        hviews]
      rfl
  | .fixedString width, h, _ =>
    exact (captures_text h rfl hlength contents hcontents).granted
      (fits_views h rfl hfits htable hlooks)
  | .string, h, _ =>
    exact (captures_text h rfl hlength contents hcontents).granted
      (fits_views h rfl hfits htable hlooks)
  | .reference width, _, _ => exact captureItems_reference hlength hlooks
  | .vlen element, h, hpackable =>
    have hwellFormed : element.WellFormed := h
    have helement := capturesPayloads_of_blocksFit hwellFormed hfits fun htable hlength _ ↦
      captureItems_of_contents element h hpackable hfits htable hlength
    exact captureItems_vlen hwellFormed helement hlength hcontents
  | .compound members size, h, hfields => exact captureItems_compound h hfields hlength hcontents

/-- Assumes: a well-formed type whose elements can be packed, and blocks that fit. Elements of the
type that lie in a block are captured as what their views stand for. -/
theorem capturesPayloads (type : ElementType) (h : type.WellFormed) (hpackable : type.IsPackable)
    (hfits : heap.BlocksFit) : CapturesPayloads heap type fun _ ↦ True :=
  capturesPayloads_of_blocksFit h hfits fun htable hlength _ ↦
    captureItems_of_contents type h hpackable hfits htable hlength

end Captured

/-! ### Tables -/

namespace Batch

variable {heap : Heap} {table : Bytes} {base : ElementType}

/-- The captured element whose length and address have a number in a table. -/
def captureNumbered (heap : Heap) (base : ElementType) (table : Bytes) (number : Nat) :
    Except Fault Captured := do
  let (length, address) ← Buffer.loadEntry table (number * entrySize)
  Captured.captureEntry heap base.size (Captured.captureItems heap base) length address

theorem captureTable_eq_mapM (number count : Nat) :
    capture.captureTable heap base table number count =
      (List.range' number count).mapM (captureNumbered heap base table) := by
  induction count generalizing number with
  | zero => rfl
  | succ count ih =>
    rw [capture.captureTable, ih, List.range'_succ, Outcome.mapM_cons_ok, captureNumbered]
    rcases Buffer.loadEntry table (number * entrySize) with _ | entry <;> rfl

section Contents

variable {fits : List View → Prop} {catalogue : Catalogue} {typeId : Int} {count : Nat}
  {contents : Contents}

/-- Assumes: a table of sequences of a well-formed type whose contents are known, and elements that
are captured when their views fit, as no views do. The table is captured when the views of the items
fit in each sequence, and interpreted as what the values that its views stand for are given back
as; otherwise it is refused. -/
theorem okIff_capture (h : base.WellFormed) (hnil : fits [])
    (helement : Captured.CapturesPayloads heap base fits)
    (hbase : catalogue.sequenceElement typeId = .ok base)
    (hlength : table.length = count * (ElementType.vlen base).width)
    (hcontents : Contents.ofItems? ((ElementType.vlen base).contents? heap)
      (ElementType.vlen base).width count table = some contents) :
    Outcome.OkIff (∀ view ∈ contents.views, fits view.parts) .storage
      (fun batch ↦ batch.interpret = .ok ((ElementType.vlen base).givenBack
        (contents.views.map (ElementType.vlen base).viewed)))
      (capture heap catalogue table count typeId) := by
  have hlooks := ElementType.looksLikeAt_of_contentsEach? hlength hcontents
  have hall : List.Forall₂ (fun k view ↦ Outcome.OkIff (fits view.parts) .storage
      (Captured.Yields base · ((ElementType.vlen base).viewed view))
      (captureNumbered heap base table k)) (List.range' 0 count) contents.views := by
    refine (Captured.forall₂_captureEntry h hnil helement hlooks).imp fun k view hview ↦ ?_
    obtain ⟨entry, hload, hcaptured⟩ := hview
    rw [captureNumbered, hload]
    exact hcaptured
  rw [capture, if_neg, hbase, Outcome.ok_bind, Int.toNat_natCast, captureTable_eq_mapM]
  · exact (Outcome.OkIff.mapM hall).bind fun elements hyields ↦ ⟨_, rfl,
      Captured.interpretAll_of_yields (List.forall₂_map_right_iff.2 hyields)⟩
  · rw [hlength, ElementType.width_vlen, Int.natCast_mul]
    omega

/-- Assumes: a table of sequences of a well-formed type whose elements can be packed, whose contents
are known, in a heap of blocks that fit. The table is captured and interpreted as what the values
that its views stand for are given back as. -/
theorem capture_of_contents (h : base.WellFormed) (hpackable : base.IsPackable)
    (hfits : heap.BlocksFit) (hbase : catalogue.sequenceElement typeId = .ok base)
    (hlength : table.length = count * (ElementType.vlen base).width)
    (hcontents : Contents.ofItems? ((ElementType.vlen base).contents? heap)
      (ElementType.vlen base).width count table = some contents) :
    ∃ batch, capture heap catalogue table count typeId = .ok batch ∧
      batch.interpret = .ok ((ElementType.vlen base).givenBack
        (contents.views.map (ElementType.vlen base).viewed)) :=
  (okIff_capture h trivial (Captured.capturesPayloads base h hpackable hfits) hbase hlength
    hcontents).granted fun _ _ ↦ trivial

variable {length : Int} {buffer : Bytes}

/-- Assumes: arrays of a well-formed type whose items can be packed and whose contents are known,
and items that are captured when their views fit. The arrays are captured when the views of the
items fit in each array, and interpreted as what the lists that their views stand for are given back
as, each by itself; otherwise they are refused. -/
theorem okIff_captureArrays (h : (ElementType.array base length).WellFormed)
    (hpackable : base.IsPackable)
    (hitems : ∀ raw : Bytes, raw.length = length.toNat * base.width →
      Captured.Captures heap base fits raw length.toNat)
    (hbase : catalogue.arrayElement typeId = .ok (base, length))
    (hlength : buffer.length = count * (ElementType.array base length).width)
    (hcontents : Contents.ofItems? ((ElementType.array base length).contents? heap)
      (ElementType.array base length).width count buffer = some contents) :
    Outcome.OkIff (∀ view ∈ contents.views, fits view.parts) .storage
      (fun batch ↦ batch.interpret = .ok ((ElementType.vlen base).givenBack
        (contents.views.map (ElementType.array base length).viewed)))
      (captureArrays heap catalogue buffer count typeId) := by
  have hsize := ElementType.mul_size h
  have hlooks := ElementType.looksLikeAt_of_contentsEach? hlength hcontents
  have hall : List.Forall₂ (fun (k : Nat) view ↦ Outcome.OkIff (fits view.parts) .storage
      (Captured.Yields base · ((ElementType.array base length).viewed view))
      (Captured.captureItems heap base (Bytes.slice buffer
        (k * (ElementType.array base length).size) ((k + 1) * (ElementType.array base length).size))
        length)) (List.range' 0 count) contents.views := by
    refine hlooks.imp fun k view hview ↦ ?_
    obtain ⟨items, hviews, rfl⟩ := hview.looksLike.of_array
    have hcut := Bytes.slice_eq_cut buffer (hsize k) ((hsize (k + 1)).trans (by rw [Nat.succ_mul]))
    have hraw := (Bytes.length_cut hview.stop_le).trans
      ((ElementType.width_array h).trans (Nat.mul_comm _ _))
    have hcaptured := hitems _ hraw items hviews
    have hcount : (length.toNat : Int) = length := Int.toNat_of_nonneg (Int.le_of_lt h.2.1)
    rw [hcount, ← hcut] at hcaptured
    exact hcaptured.imp fun captured hinterpret ↦ ⟨_, hinterpret, rfl⟩
  rw [captureArrays, hbase, Outcome.ok_bind]
  dsimp only
  rw [if_neg (by rw [hsize, ← hlength]; omega), Int.toNat_natCast, List.range_eq_range']
  have hyields (elements : List Captured) (h : List.Forall₂ (fun captured view ↦
      Captured.Yields base captured ((ElementType.array base length).viewed view)) elements
      contents.views) :
      ∃ batch, Except.ok (ε := Fault) (Batch.mk typeId base elements) = .ok batch ∧
        batch.interpret = .ok ((ElementType.vlen base).givenBack
          (contents.views.map (ElementType.array base length).viewed)) :=
    ⟨_, rfl, Captured.interpretAll_of_yields (List.forall₂_map_right_iff.2 h)⟩
  cases base with
  | array element inner => exact absurd hpackable id
  | _ => exact (Outcome.OkIff.mapM hall).bind hyields

/-- Assumes: arrays of a well-formed type whose items can be packed, whose contents are known, in a
heap of blocks that fit, and items few and short enough for a string table when they are text. The
arrays are captured and interpreted as what the lists that their views stand for are given back as,
each by itself. -/
theorem captureArrays_of_contents (h : (ElementType.array base length).WellFormed)
    (hpackable : base.IsPackable) (hfits : heap.BlocksFit) (htable : base.FitsTable length.toNat)
    (hbase : catalogue.arrayElement typeId = .ok (base, length))
    (hlength : buffer.length = count * (ElementType.array base length).width)
    (hcontents : Contents.ofItems? ((ElementType.array base length).contents? heap)
      (ElementType.array base length).width count buffer = some contents) :
    ∃ batch, captureArrays heap catalogue buffer count typeId = .ok batch ∧
      batch.interpret = .ok ((ElementType.vlen base).givenBack
        (contents.views.map (ElementType.array base length).viewed)) := by
  have hitems (raw : Bytes) (hraw : raw.length = length.toNat * base.width) :
      Captured.Captures heap base (fun _ ↦ True) raw length.toNat := by
    intro items hitems
    obtain ⟨captured, hcaptured, hinterpret⟩ :=
      Captured.captureItems_of_contents base h.1 hpackable hfits htable hraw hitems
    exact .of_ok trivial hcaptured hinterpret
  exact (okIff_captureArrays h hpackable hitems hbase hlength hcontents).granted fun _ _ ↦ trivial

end Contents

end Batch

end Stowage
