import Stowage.Proofs.Record.Reading
import Stowage.Proofs.Sequence.Tables

/-!
# Interpretation never fails and keeps every length

A captured element may hold anything: bytes of any length, values that do not match its length, too
few parts. Decoding such an element gives exactly as many values as the element has, or a fault that
makes default values of it (`Captured.decode_okOr`). There is one way for any other fault to get
out: texts are filled up to the length of the element, and a sequence cannot be filled up with more
texts than it can hold. So an element with bytes has to have a length below `Buffer.indexLimit`
(`Captured.Legible`); no type and no bytes need to be excluded.

Therefore `Batch.interpret_lengths` gives one list for each element, of its length, and says the
same of the parts of an element that was decoded from parts, by induction on the type.
-/

set_option autoImplicit false

namespace Stowage

namespace Captured

/-! ### Conditions on all levels -/

/-- A property of an element, of its parts, of their parts, and so on. -/
inductive EveryLevel (holds : Captured → Prop) : Captured → Prop
  | intro {captured : Captured} (here : holds captured)
      (inner : ∀ parts, captured.parts = some parts → ∀ part ∈ parts, EveryLevel holds part) :
      EveryLevel holds captured

namespace EveryLevel

variable {holds kept : Captured → Prop} {captured : Captured}

theorem here (h : EveryLevel holds captured) : holds captured := by
  cases h with
  | intro hhere _ => exact hhere

theorem inner (h : EveryLevel holds captured) {parts : List Captured}
    (hparts : captured.parts = some parts) : ∀ part ∈ parts, EveryLevel holds part := by
  cases h with
  | intro _ hinner => exact hinner parts hparts

theorem of_parts_eq_none (hhere : holds captured) (hparts : captured.parts = none) :
    EveryLevel holds captured :=
  .intro hhere fun parts hsome ↦ absurd (hparts.symm.trans hsome) (by simp)

theorem imp (h : EveryLevel holds captured) (himp : ∀ captured, holds captured → kept captured) :
    EveryLevel kept captured := by
  induction h with
  | intro hhere _ ih => exact .intro (himp _ hhere) ih

end EveryLevel

/-- The length can be the length of a sequence. -/
def Bounded (captured : Captured) : Prop :=
  0 ≤ captured.length ∧ captured.length < Buffer.indexLimit

/-- The length is not negative, and can be the length of a sequence unless there are no bytes. -/
def Legible (captured : Captured) : Prop :=
  0 ≤ captured.length ∧ (captured.payload ≠ [] → captured.length < Buffer.indexLimit)

theorem Bounded.legible {captured : Captured} (h : captured.Bounded) : captured.Legible :=
  ⟨h.1, fun _ ↦ h.2⟩

/-- The values are as many as the element has, and each value of an element that was decoded from
parts is the list of a part, of which the same holds. -/
def Fills : ElementType → Captured → List Value → Prop
  | .vlen element, captured, values =>
    (values.length : Int) = captured.length ∧
      (captured.decoded = none → ∀ parts, captured.parts = some parts →
        (parts.length : Int) = captured.length →
          List.Forall₂ (fun part value ↦ ∃ items, value = .list items ∧ Fills element part items)
            parts values)
  | _, captured, values => (values.length : Int) = captured.length

/-- The value is a list that fills the element. -/
def Listed (base : ElementType) (captured : Captured) (value : Value) : Prop :=
  ∃ items, value = .list items ∧ Fills base captured items

end Captured

/-! ### Elements without parts -/

namespace StringTable

/-- Reading entries is refused by nothing but the checks on the table. -/
theorem readEntries_okOr (number count : Nat) (bytes : Bytes) :
    Outcome.OkOr Fault.isDecoding (fun _ ↦ True) (readEntries number count bytes) := by
  induction count generalizing number bytes with
  | zero => trivial
  | succ count ih =>
    rw [readEntries]
    split
    · rfl
    · dsimp only
      split
      · rfl
      · have hrest := ih (number + 1)
          ((bytes.drop countSize).drop (Bytes.toNat (bytes.take countSize)))
        split
        · trivial
        · next fault hfault =>
          rw [hfault] at hrest
          exact hrest

theorem entries_okOr (payload : Bytes) :
    Outcome.OkOr Fault.isDecoding (fun _ ↦ True) (entries payload) := by
  have hread : Outcome.OkOr Fault.isDecoding (fun _ ↦ True) (read payload) := by
    unfold read
    split
    · rfl
    · exact readEntries_okOr 0 _ _
  exact hread.map Prod.fst fun _ _ ↦ trivial

end StringTable

namespace Captured

variable {payload : Bytes} {length : Int}

/-- As many values as the element has, or a fault that makes default values of it. -/
abbrev Decodes (length : Int) (outcome : Except Fault (List Value)) : Prop :=
  Outcome.OkOr Fault.isDecoding (fun values ↦ (values.length : Int) = length) outcome

theorem decodeTexts_okOr (hpos : 0 ≤ length)
    (hlt : payload ≠ [] → length < Buffer.indexLimit) :
    Decodes length (decodeTexts payload length) := by
  have hread := StringTable.entries_okOr payload
  unfold decodeTexts
  by_cases hpayload : payload = []
  · rw [hpayload]
    rfl
  · have hlimit := hlt hpayload
    generalize StringTable.entries payload = outcome at hread
    cases outcome with
    | error fault => exact hread
    | ok entries =>
      dsimp only
      have hcut : (Bytes.slice entries 0 length).length ≤ length := by
        obtain ⟨count, rfl⟩ := Int.eq_ofNat_of_zero_le hpos
        have hslice := Bytes.slice_natCast entries 0 count
        rw [Int.natCast_zero, List.drop_zero] at hslice
        rw [hslice, List.length_take]
        omega
      rw [List.length_map, if_neg (by omega)]
      change (List.length (_ ++ _) : Int) = length
      rw [List.length_append, List.length_map, List.length_replicate]
      omega

theorem decodeNumbers_okOr (type : NumberType) (hpos : 0 ≤ length) :
    Decodes length (decodeNumbers type payload length) := by
  unfold decodeNumbers
  dsimp only
  split
  · rfl
  · rw [if_neg (by omega)]
    change ((type.loadAll length.toNat payload).length : Int) = length
    rw [NumberType.length_loadAll]
    omega

theorem decodeReferences_okOr (width : Int) (hpos : 0 ≤ length) :
    Decodes length (decodeReferences width payload length) := by
  unfold decodeReferences
  split
  · next entries hentries =>
    change ((entries.map Value.bytes).length : Int) = length
    rw [List.length_map]
    exact (StringTable.exactEntries?_eq_some_iff.1 hentries).2
  · dsimp only
    split
    · rfl
    · change (((List.range length.toNat).map _).length : Int) = length
      rw [List.length_map, List.length_range]
      omega

theorem isDecoding_of_isMarshalling (fault : Fault) (h : fault.isMarshalling = true) :
    fault.isDecoding = true := by
  cases fault <;> first | rfl | exact h

theorem decodeRecords_okOr (layout : RecordLayout) (hpos : 0 ≤ length) :
    Decodes length (decodeRecords layout payload length) := by
  refine Outcome.OkOr.imp (layout.check_okOr.bind fun _ hfields ↦
    RecordLayout.unpack_okOr none hfields payload length) isDecoding_of_isMarshalling ?_
  intro records hrecords
  omega

/-! ### Elements of every type -/

/-- Legible elements of the type are interpreted without a fault, each as a list that fills it. -/
def Interprets (base : ElementType) : Prop :=
  ∀ elements : List Captured, (∀ captured ∈ elements, captured.EveryLevel Legible) →
    ∃ lists, interpretAll base elements = .ok lists ∧ List.Forall₂ (Listed base) elements lists

/-- A sequence of sequences with all its parts is decoded part by part. -/
theorem decode_of_parts {element : ElementType} {captured : Captured} {parts : List Captured}
    (hdecoded : captured.decoded = none) (hparts : captured.parts = some parts)
    (hcount : (parts.length : Int) = captured.length) :
    decode (.vlen element) captured = interpretAll element parts := by
  obtain ⟨payload, length, decoded, found⟩ := captured
  obtain rfl : decoded = none := hdecoded
  obtain rfl : found = some parts := hparts
  rw [decode, if_neg (fun hne ↦ hne hcount)]

/-- Assumes: the elements of a sequence of sequences are interpreted. A legible element is decoded
to as many values as it has, or with a fault that makes default values of it. -/
theorem decode_okOr {base : ElementType}
    (helements : ∀ element, base = .vlen element → Interprets element) {captured : Captured}
    (h : captured.EveryLevel Legible) : Decodes captured.length (decode base captured) := by
  obtain ⟨payload, length, decoded, parts⟩ := captured
  obtain ⟨hpos, hlt⟩ := h.here
  cases decoded with
  | some values =>
    rw [decode]
    split
    · rfl
    · next hlength =>
      have hsame := Decidable.not_not.1 hlength
      exact hsame
  | none =>
    cases base with
    | number type => exact decodeNumbers_okOr type hpos
    | enum backing members => exact decodeNumbers_okOr backing hpos
    | fixedString width => exact decodeTexts_okOr hpos hlt
    | string => exact decodeTexts_okOr hpos hlt
    | reference width => exact decodeReferences_okOr width hpos
    | compound members size => exact decodeRecords_okOr _ hpos
    | array element count => rfl
    | vlen element =>
      cases parts with
      | none => rfl
      | some parts =>
        by_cases hcount : (parts.length : Int) = length
        · obtain ⟨lists, hlists, hall⟩ := helements element rfl parts (h.inner rfl)
          rw [decode_of_parts rfl rfl hcount, hlists]
          change (lists.length : Int) = length
          rw [← hall.length_eq, hcount]
        · rw [decode, if_pos hcount]
          rfl

/-- Assumes: the elements of a sequence of sequences are interpreted. A legible element is
interpreted as values that fill it. -/
theorem interpret_fills {base : ElementType}
    (helements : ∀ element, base = .vlen element → Interprets element) {captured : Captured}
    (h : captured.EveryLevel Legible) :
    ∃ values, interpret base captured = .ok values ∧ Fills base captured values := by
  have hpos := h.here.1
  have hdecode := decode_okOr helements h
  have hinterpret : ∃ values, interpret base captured = .ok values ∧
      (values.length : Int) = captured.length := by
    unfold interpret
    by_cases hempty : captured.length = 0
    · exact ⟨[], if_pos hempty, hempty.symm⟩
    · rw [if_neg hempty]
      generalize decode base captured = outcome at hdecode
      cases outcome with
      | ok values => exact ⟨values, rfl, hdecode⟩
      | error fault =>
        refine ⟨_, if_pos hdecode, ?_⟩
        rw [List.length_replicate]
        omega
  obtain ⟨values, hvalues, hlength⟩ := hinterpret
  refine ⟨values, hvalues, ?_⟩
  cases base with
  | vlen element =>
    refine ⟨hlength, fun hdecoded parts hparts hcount ↦ ?_⟩
    obtain ⟨lists, hlists, hall⟩ := helements element rfl parts (h.inner hparts)
    have hcounted : (lists.length : Int) = captured.length := by
      rw [← hall.length_eq, hcount]
    have hsame := interpret_of_decode
      ((decode_of_parts hdecoded hparts hcount).trans hlists) hcounted
    obtain rfl := Except.ok.inj (hvalues.symm.trans hsame)
    exact hall
  | _ => exact hlength

/-- Elements are interpreted one after another. -/
theorem interprets_of_interpret {base : ElementType}
    (h : ∀ captured : Captured, captured.EveryLevel Legible →
      ∃ values, interpret base captured = .ok values ∧ Fills base captured values) :
    Interprets base := by
  intro elements helements
  induction elements with
  | nil => exact ⟨[], rfl, .nil⟩
  | cons captured rest ih =>
    obtain ⟨hcaptured, hrest⟩ := List.forall_mem_cons.1 helements
    obtain ⟨values, hvalues, hfills⟩ := h captured hcaptured
    obtain ⟨lists, hlists, hall⟩ := ih hrest
    refine ⟨.list values :: lists, ?_, .cons ⟨values, rfl, hfills⟩ hall⟩
    unfold interpret at hvalues
    rw [interpretAll, hvalues, hlists]

/-- Legible elements of every type are interpreted. -/
theorem interprets (base : ElementType) : Interprets base := by
  refine interprets_of_interpret fun captured h ↦ interpret_fills (fun element hbase ↦ ?_) h
  match base with
  | .vlen inner =>
    obtain rfl := ElementType.vlen.inj hbase
    exact interprets inner
  | .number _ | .fixedString _ | .string | .array _ _ | .reference _ | .enum _ _
  | .compound _ _ => exact absurd hbase (by simp)

end Captured

/-! ### Batches -/

namespace Batch

/-- Assumes: no length at any level of the elements is negative or too large for a sequence. A
batch of any type is interpreted without a fault, each element as a list of as many values as it
has; and so are, in their places, the parts of an element that was decoded from parts. -/
theorem interpret_lengths (batch : Batch)
    (h : ∀ captured ∈ batch.elements, captured.EveryLevel Captured.Bounded) :
    ∃ lists, batch.interpret = .ok lists ∧
      List.Forall₂ (Captured.Listed batch.base) batch.elements lists :=
  Captured.interprets batch.base batch.elements fun captured hcaptured ↦
    (h captured hcaptured).imp fun _ ↦ Captured.Bounded.legible

/-- Two parts of which the second has too few bytes, and an element whose parts are missing. -/
theorem interpret_lengths_spoilt :
    let batch : Batch := ⟨3, .vlen (.number .int16),
      [.mk [] 2 none (some [.mk [1, 0, 2, 0] 2 none none, .mk [9] 1 none none]),
        .mk [] 3 none none]⟩
    let lists := [.list [.list [.int 1, .int 2], .list [.int 0]],
      .list [.list [], .list [], .list []]]
    (∀ captured ∈ batch.elements, captured.EveryLevel Captured.Bounded) ∧
      batch.interpret = .ok lists ∧
        List.Forall₂ (Captured.Listed batch.base) batch.elements lists := by
  intro batch lists
  have hplain (payload : Bytes) (length : Nat) (hlt : length < 4) :
      Captured.EveryLevel Captured.Bounded (.mk payload length none none) := by
    refine .of_parts_eq_none ⟨Int.natCast_nonneg length, ?_⟩ rfl
    exact Int.lt_trans (Int.ofNat_lt.2 hlt) (by decide)
  have hbounded : ∀ captured ∈ batch.elements, captured.EveryLevel Captured.Bounded := by
    refine List.forall_mem_cons.2 ⟨.intro ⟨by decide, by decide⟩ fun parts hparts ↦ ?_, ?_⟩
    · obtain rfl := Option.some.inj hparts
      exact List.forall_mem_cons.2 ⟨hplain _ 2 (by decide),
        List.forall_mem_singleton.2 (hplain _ 1 (by decide))⟩
    · exact List.forall_mem_singleton.2 (hplain _ 3 (by decide))
  have hvalue : batch.interpret = .ok lists := by rfl
  obtain ⟨found, hfound, hall⟩ := interpret_lengths batch hbounded
  obtain rfl := Except.ok.inj (hfound.symm.trans hvalue)
  exact ⟨hbounded, hvalue, hall⟩

end Batch

end Stowage
