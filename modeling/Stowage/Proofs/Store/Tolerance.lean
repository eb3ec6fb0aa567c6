import Stowage.Proofs.Sequence.Interpretation
import Stowage.Proofs.Sequence.Reading
import Stowage.Proofs.Store.Sound

/-!
# Capturing tolerates any memory

The lengths and addresses that a capture follows may be anything: they may lead nowhere, into the
middle of a block, past its end, or to freed memory, and so may the lengths and addresses that are
found there. Each read is refused by the memory alone (`Heap.read_error`), and a sequence whose
bytes cannot be copied keeps its length. So elements of every well-formed type are captured, by
induction on the type (`Captured.tolerates`), and because blocks are small, an element that has
bytes has a length that can be interpreted.

`Store.capture_total` says this of a whole table, of the lengths of the captured elements, and of
their interpretation, which needs nothing of the library that they were captured from.
-/

set_option autoImplicit false

namespace Stowage

namespace Captured

variable {heap : Heap} {type element : ElementType}

/-! ### Copies -/

/-- A copy of elements is what was read with one of the widths, or empty. -/
theorem copyWith_eq_ok (heap : Heap) (address length : Int) (widths : List Int) :
    ∃ bytes, copyWith heap address length widths = .ok bytes ∧
      (bytes ≠ [] → ∃ width ∈ widths, heap.read address (length * width) = .ok bytes) := by
  induction widths with
  | nil => exact ⟨[], rfl, fun hne ↦ absurd rfl hne⟩
  | cons width rest ih =>
    rw [copyWith]
    rcases hread : heap.read address (length * width) with fault | bytes
    · obtain ⟨cause, rfl⟩ := Heap.read_error hread
      obtain ⟨bytes, hcopy, hfound⟩ := ih
      refine ⟨bytes, hcopy, fun hne ↦ ?_⟩
      obtain ⟨other, hother, hbytes⟩ := hfound hne
      exact ⟨other, List.mem_cons_of_mem _ hother, hbytes⟩
    · exact ⟨bytes, rfl, fun _ ↦ ⟨width, List.mem_cons_self, hread⟩⟩

/-- A copy of elements of a well-formed type is empty or holds all of them, in one block. -/
theorem copyPayload_eq_ok (h : element.WellFormed) (hfits : heap.BlocksFit)
    (length address : Nat) :
    ∃ bytes, copyPayload heap element.size length address = .ok bytes ∧
      (bytes ≠ [] → bytes.length = length * element.width ∧
        bytes.length < StringTable.sizeLimit) := by
  obtain ⟨bytes, hcopy, hread⟩ := copyWith_eq_ok heap address length [element.size]
  refine ⟨bytes, ?_, fun hne ↦ ?_⟩
  · rw [copyPayload, if_pos (ElementType.size_pos h), hcopy]
  · obtain ⟨width, hwidth, hbytes⟩ := hread hne
    obtain rfl := List.mem_singleton.1 hwidth
    rw [ElementType.mul_size h] at hbytes
    exact ⟨Heap.length_of_read hbytes, hfits.length_lt_of_read hbytes⟩

/-! ### Elements -/

/-- Any bytes of `length` elements of the type are captured, as an element of this length that can
be interpreted. -/
def Tolerates (heap : Heap) (type : ElementType) : Prop :=
  ∀ (raw : Bytes) (length : Nat), raw.length = length * type.width →
    raw.length < StringTable.sizeLimit →
      ∃ captured, captureItems heap type raw length = .ok captured ∧
        captured.length = length ∧ captured.EveryLevel Legible

/-- The number of elements whose bytes lie in one block can be the length of a sequence. -/
theorem length_lt_indexLimit (h : type.WellFormed) {raw : Bytes} {length : Nat}
    (hlength : raw.length = length * type.width) (hraw : raw.length < StringTable.sizeLimit) :
    (length : Int) < Buffer.indexLimit := by
  have hle : length ≤ length * type.width := Nat.le_mul_of_pos_right _ (ElementType.width_pos h)
  have hlimit : (StringTable.sizeLimit : Int) ≤ Buffer.indexLimit := by decide
  omega

/-- An element without parts can be interpreted when its length can be that of a sequence. -/
theorem legible_of_parts_eq_none {captured : Captured} {length : Nat}
    (hlength : captured.length = length) (hparts : captured.parts = none)
    (hlt : (length : Int) < Buffer.indexLimit) : captured.EveryLevel Legible := by
  refine .of_parts_eq_none ⟨?_, fun _ ↦ ?_⟩ hparts
  · rw [hlength]
    exact Int.natCast_nonneg length
  · rw [hlength]
    exact hlt

/-- Records are decoded or left, from any bytes. -/
theorem decodeLive_eq_ok (heap : Heap) (layout : RecordLayout) (raw : Bytes) (length : Int) :
    ∃ decoded, decodeLive heap layout raw length = .ok decoded := by
  have hdecode := layout.check_okOr.bind fun _ hfields ↦
    RecordLayout.unpack_okOr (some heap) hfields raw length
  unfold decodeLive
  dsimp only
  split
  · exact ⟨_, rfl⟩
  · next fault hfault =>
    rw [hfault] at hdecode
    exact ⟨none, if_pos hdecode⟩

/-- The length of the element that is captured for a length and an address. -/
def keptLength (length address : Nat) : Int :=
  if length = 0 ∨ address = Heap.nullAddress then 0 else length

/-- Assumes: elements of the type are captured from any bytes. Any length and address are captured,
as an element of this length that can be interpreted. -/
theorem captureEntry_eq_ok (h : element.WellFormed) (hfits : heap.BlocksFit)
    (helement : Tolerates heap element) (length address : Nat) :
    ∃ captured, captureEntry heap element.size (captureItems heap element) length address =
        .ok captured ∧
      captured.length = keptLength length address ∧ captured.EveryLevel Legible := by
  unfold captureEntry keptLength
  by_cases hempty : length = 0 ∨ address = Heap.nullAddress
  · rw [if_pos hempty, if_pos hempty]
    exact ⟨empty, rfl, rfl, .of_parts_eq_none ⟨Int.le_refl 0, fun _ ↦ by decide⟩ rfl⟩
  · rw [if_neg hempty, if_neg hempty]
    obtain ⟨raw, hcopy, hraw⟩ := copyPayload_eq_ok h hfits length address
    rw [hcopy, Outcome.ok_bind]
    by_cases hnone : raw = []
    · rw [hnone]
      exact ⟨.mk [] length none none, rfl, rfl,
        .of_parts_eq_none ⟨Int.natCast_nonneg length, fun hne ↦ absurd rfl hne⟩ rfl⟩
    · obtain ⟨hlength, hlt⟩ := hraw hnone
      rw [if_neg (by simpa using hnone)]
      exact helement raw length hlength hlt

/-- Any stored lengths and addresses are captured, each by itself. -/
theorem tolerates_vlen (h : element.WellFormed) (hfits : heap.BlocksFit)
    (helement : Tolerates heap element) : Tolerates heap (.vlen element) := by
  intro raw length hlength hraw
  have hvlen : (ElementType.vlen element).WellFormed := h
  have hlt := length_lt_indexLimit hvlen hlength hraw
  rw [ElementType.width_vlen] at hlength
  have hentry (k : Nat) (hk : k ∈ List.range' 0 length) :
      ∃ entry, Buffer.loadEntry raw (k * entrySize) = .ok entry := by
    have hload := Buffer.loadEntry_eq (item_stop_le hk (Nat.le_of_eq hlength.symm))
    rw [Int.natCast_mul] at hload
    exact ⟨_, hload⟩
  obtain ⟨entries, hentries⟩ := Outcome.exists_mapM_eq_ok_iff.2 hentry
  obtain ⟨parts, hparts, hall⟩ := Outcome.exists_mapM_of_forall fun entry (_ : entry ∈ entries) ↦
    captureEntry_eq_ok h hfits helement entry.1 entry.2
  refine ⟨.mk raw length none (some parts), ?_, rfl, .intro ?_ ?_⟩
  · rw [captureItems, Int.toNat_natCast, loadEntries_eq_mapM, hentries, Outcome.ok_bind, hparts,
      Outcome.ok_bind]
  · exact ⟨Int.natCast_nonneg length, fun _ ↦ hlt⟩
  · intro found hfound part hpart
    obtain rfl := Option.some.inj hfound
    obtain ⟨entry, _, hpart⟩ := Outcome.exists_mem_of_forall₂ hall hpart
    exact hpart.2

/-- Strings in bytes that fit in a block fit in a string table. -/
theorem length_lt_of_stringAt? (hfits : heap.BlocksFit) {raw : Bytes}
    (hraw : raw.length < StringTable.sizeLimit) {k : Nat} {string : Bytes}
    (h : stringAt? heap type raw k = some string) : string.length < StringTable.sizeLimit := by
  cases type with
  | fixedString width =>
    obtain rfl := Option.some.inj h
    have hinside := (List.takeWhile_sublist (l := Bytes.slice raw (k * width) ((k + 1) * width))
      (· ≠ 0)).length_le
    have hslice : (Bytes.slice raw (k * width) ((k + 1) * width)).length ≤ raw.length := by
      rw [Bytes.slice, List.length_drop, List.length_take]
      omega
    exact Nat.lt_of_le_of_lt (Nat.le_trans hinside hslice) hraw
  | string =>
    change stringThere? heap _ = some string at h
    unfold stringThere? at h
    split at h
    · obtain rfl := Option.some.inj h
      decide
    · exact hfits.length_lt_of_readString (Outcome.toOption_eq_some.1 h)
  | _ => exact absurd h (by simp [stringAt?])

/-- Any bytes of strings are captured, since their table is small enough. -/
theorem tolerates_text (h : type.WellFormed) (htext : type.isText = true)
    (hfits : heap.BlocksFit) : Tolerates heap type := by
  intro raw length hlength hraw
  have hlt := length_lt_indexLimit h hlength hraw
  have hsize : length * type.size ≤ raw.length := by rw [ElementType.mul_size h, hlength]
  have hle : length ≤ length * type.width := Nat.le_mul_of_pos_right _ (ElementType.width_pos h)
  have hstrings : StringTable.Fits (strings heap type raw length) :=
    fits_strings (by omega) fun _ _ _ ↦ length_lt_of_stringAt? hfits hraw
  exact ⟨_, (captureItems_of_isText heap htext hsize).trans (ofStrings_eq_ok _ _ hstrings),
    rfl, legible_of_parts_eq_none rfl rfl hlt⟩

/-- Assumes: a well-formed type, and blocks that fit. Any bytes of its elements are captured. -/
theorem tolerates (type : ElementType) (h : type.WellFormed) (hfits : heap.BlocksFit) :
    Tolerates heap type := by
  match type with
  | .vlen element => exact tolerates_vlen h hfits (tolerates element h hfits)
  | .fixedString _ | .string => exact tolerates_text h rfl hfits
  | .number _ | .array _ _ | .reference _ | .enum _ _ =>
    intro raw length hlength hraw
    have hlt := length_lt_indexLimit h hlength hraw
    exact ⟨_, rfl, rfl, legible_of_parts_eq_none rfl rfl hlt⟩
  | .compound members size =>
    intro raw length hlength hraw
    have hlt := length_lt_indexLimit h hlength hraw
    obtain ⟨decoded, hdecoded⟩ := decodeLive_eq_ok heap (.ofMembers members size) raw length
    rw [captureItems]
    by_cases hvariable : members.isVariable = true
    · rw [if_pos hvariable, hdecoded, Outcome.ok_bind]
      exact ⟨_, rfl, rfl, legible_of_parts_eq_none rfl rfl hlt⟩
    · rw [if_neg hvariable]
      exact ⟨_, rfl, rfl, legible_of_parts_eq_none rfl rfl hlt⟩

end Captured

/-! ### Tables -/

namespace Batch

open Captured (keptLength)

/-- The length of the element that is captured for the sequence with a number in a table. -/
def lengthAt (table : Bytes) (number : Nat) : Int :=
  keptLength (Bytes.toNat (Bytes.cut table (number * entrySize) 8))
    (Bytes.toNat (Bytes.cut table (number * entrySize + 8) 8))

/-- Assumes: a well-formed type, and blocks that fit. Any table that is long enough is captured, as
elements that can be interpreted and have the lengths that stand in the table. -/
theorem captureTable_eq_ok {heap : Heap} {base : ElementType} (h : base.WellFormed)
    (hfits : heap.BlocksFit) {table : Bytes} {count : Nat}
    (hlong : count * entrySize ≤ table.length) :
    ∃ elements, capture.captureTable heap base table 0 count = .ok elements ∧
      List.Forall₂ (fun k captured ↦ captured.length = lengthAt table k ∧
        captured.EveryLevel Captured.Legible) (List.range count) elements := by
  rw [captureTable_eq_mapM, List.range_eq_range']
  refine Outcome.exists_mapM_of_forall fun k hk ↦ ?_
  have hstop : k * entrySize + 16 ≤ table.length := Captured.item_stop_le hk hlong
  have hload := Buffer.loadEntry_eq hstop
  rw [Int.natCast_mul, Bytes.cut_cut table (by decide), Bytes.cut_cut table (by decide),
    Nat.add_zero] at hload
  have htolerates := Captured.tolerates base h hfits
  obtain ⟨captured, hcaptured, hkept⟩ := Captured.captureEntry_eq_ok h hfits htolerates
    (Bytes.toNat (Bytes.cut table (k * entrySize) 8))
    (Bytes.toNat (Bytes.cut table (k * entrySize + 8) 8))
  exact ⟨captured, Outcome.bind_eq_ok.2 ⟨_, hload, hcaptured⟩, hkept⟩

end Batch

namespace Store

/-- Assumes: a library after any calls, a sequence type that descriptor text describes, registered
in it, a heap with any blocks that fit, and a table with an entry for every element. The capture is
granted and leaves the library as it is. It gives an element for every entry: one of length zero
where the length is zero or the address is null, and one of the stored length elsewhere. Whatever
becomes of the library later, the interpretation gives, for each element, a list of so many
values. -/
theorem capture_total {capacity : Nat} {store : Store} (hreachable : Reachable capacity store)
    {base : ElementType} (haccepts : Descriptor.Accepts (.vlen base)) {typeId : Int}
    (htype : store.registry.typeOf typeId = .ok (.vlen base)) {heap : Heap}
    (hfits : heap.BlocksFit) {count : Nat} {table : Bytes}
    (hlong : count * entrySize ≤ table.length) :
    ∃ elements lists,
      (Action.reading fun store ↦ Batch.capture store.heap store.catalogue table count typeId).run
          { store with heap } = (.ok ⟨typeId, base, elements⟩, { store with heap }) ∧
        List.Forall₂ (fun k captured ↦ captured.length = Batch.lengthAt table k)
          (List.range count) elements ∧
        List.Forall₂ (Captured.Listed base) elements lists ∧
        ∀ later : Store, (Action.ofExcept (Batch.interpret ⟨typeId, base, elements⟩)).run later =
          (.ok lists, later) := by
  have hvlen : (ElementType.vlen base).WellFormed := haccepts.wellFormed
  have hwellFormed : base.WellFormed := hvlen
  have hbase : store.catalogue.sequenceElement typeId = .ok base :=
    hreachable.closed.sequenceElement_eq_ok htype hvlen
  obtain ⟨elements, helements, hall⟩ := Batch.captureTable_eq_ok hwellFormed hfits hlong
  have hlegible : ∀ captured ∈ elements, captured.EveryLevel Captured.Legible := by
    intro captured hcaptured
    obtain ⟨k, _, hkept⟩ := Outcome.exists_mem_of_forall₂ hall hcaptured
    exact hkept.2
  obtain ⟨lists, hlists, hlisted⟩ := Captured.interprets base elements hlegible
  refine ⟨elements, lists, ?_, hall.imp fun _ _ hkept ↦ hkept.1, hlisted, fun later ↦ ?_⟩
  · have hcapture : Batch.capture heap store.catalogue table count typeId =
        .ok ⟨typeId, base, elements⟩ := by
      rw [Batch.capture, if_neg (by omega), hbase, Outcome.ok_bind, Int.toNat_natCast, helements,
        Outcome.ok_bind]
    exact Prod.ext hcapture rfl
  · exact Prod.ext hlists rfl

/-- A library with a block that holds a length and an address that leads nowhere. -/
def straying : Store :=
  (Call.poke 8 (Buffer.entryBytes 5 9999)).next <| (Call.allocate 16).next <|
    (Call.register (.vlen (.vlen .string))).next (empty 0)

/-- Entries that lead to the block of `straying`, nowhere, nowhere by their length, and past the end
of the block. -/
def strayTable : Bytes :=
  [(1, 8), (7, 3), (0, 8), (1000, 8)].flatMap fun (length, address) ↦
    Buffer.entryBytes length address

/-- Elements whose memory cannot be read keep their lengths. -/
theorem capture_total_straying :
    ∃ elements lists,
      (Action.reading fun store ↦ Batch.capture store.heap store.catalogue strayTable 4 3).run
          straying = (.ok ⟨3, .vlen .string, elements⟩, straying) ∧
        elements.map Captured.length = [1, 7, 0, 1000] ∧
        List.Forall₂ (Captured.Listed (.vlen .string)) elements lists ∧
        ∀ later : Store,
          (Action.ofExcept (Batch.interpret ⟨3, .vlen .string, elements⟩)).run later =
            (.ok lists, later) := by
  have hreachable : Reachable 0 straying :=
    .next (.next (.next .refl trivial) trivial) trivial
  have haccepts : Descriptor.Accepts (.vlen (.vlen .string)) :=
    .inl ⟨"vlen<vlen<string>>", by decide +kernel⟩
  have hfits : straying.heap.BlocksFit := by
    unfold Heap.BlocksFit
    decide +kernel
  have htype : straying.registry.typeOf 3 = .ok (.vlen (.vlen .string)) := rfl
  obtain ⟨elements, lists, hrun, hlengths, hlisted, hlater⟩ := capture_total hreachable haccepts
    htype hfits (by decide : 4 * entrySize ≤ strayTable.length)
  have hkept : (List.range 4).map (Batch.lengthAt strayTable) = [1, 7, 0, 1000] := by decide
  refine ⟨elements, lists, hrun, ?_, hlisted, hlater⟩
  rw [← hkept]
  exact (Outcome.map_eq_map_of_forall₂ (hlengths.imp fun _ _ hlength ↦ hlength.symm)).symm

end Store

end Stowage
