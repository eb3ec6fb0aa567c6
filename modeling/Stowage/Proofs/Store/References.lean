import Stowage.Proofs.Sequence.Tables
import Stowage.Proofs.Store.Single

/-!
# References are given back unless they spell a table

The payload of a sequence of references is their bytes back to back. When it is decoded, it is first
taken for a table of as many entries, and cut by the width of a reference only when it is not one.
So references that were packed, captured and interpreted come back byte for byte exactly when their
bytes are not such a table (`Captured.Recovers`); otherwise the entries of the table come in their
place. This holds for sequences and for arrays of references (`Store.recovers_references`).
-/

set_option autoImplicit false

namespace Stowage

open StringTable (IsTable)

/-! ### Decoding -/

/-- An array of references takes up as many bytes as they do. -/
theorem ElementType.size_array_reference (width count : Nat) :
    (ElementType.array (.reference width) count).size = ((count * width : Nat) : Int) := by
  rw [ElementType.size, ElementType.size, Int.natCast_mul, Int.mul_comm]

/-- Parts of one width are the cuts of their bytes back to back. -/
theorem Bytes.map_cut_flatten {parts : List Bytes} {width : Nat}
    (h : ∀ part ∈ parts, part.length = width) :
    ((List.range parts.length).map fun k ↦ Bytes.cut parts.flatten (k * width) width) = parts := by
  refine List.ext_getElem (by simp) fun k _ hk ↦ ?_
  rw [List.getElem_map, List.getElem_range]
  exact Bytes.cut_flatten h (List.getElem?_eq_getElem hk)

namespace Captured

variable {refs : List Bytes} {width : Nat}

/-- The payload is a table of an expected number of entries: these are the references. -/
theorem decodeReferences_of_isTable {payload : Bytes} {entries : List Bytes}
    (h : IsTable payload entries) (width : Int) :
    decodeReferences width payload entries.length = .ok (entries.map .bytes) := by
  rw [decodeReferences, StringTable.exactEntries?_eq_some_iff.2 ⟨h, rfl⟩]

/-- The payload is no such table: the references are cut out by their width. -/
theorem decodeReferences_flatten (hlength : ∀ ref ∈ refs, ref.length = width)
    (h : ∀ entries, IsTable refs.flatten entries → entries.length ≠ refs.length) :
    decodeReferences width refs.flatten refs.length = .ok (refs.map .bytes) := by
  have hnone : StringTable.exactEntries? refs.flatten refs.length = none := by
    rcases hexact : StringTable.exactEntries? refs.flatten refs.length with _ | entries
    · rfl
    · obtain ⟨htable, hcount⟩ := StringTable.exactEntries?_eq_some_iff.1 hexact
      exact absurd (Int.ofNat_inj.1 hcount) (h entries htable)
  have hbytes := Bytes.length_flatten_of_forall hlength
  have henough : ¬ (refs.flatten.length : Int) < refs.length * width := by
    rw [hbytes, Int.natCast_mul]
    omega
  rw [decodeReferences, hnone]
  dsimp only
  rw [if_neg henough, Int.toNat_natCast]
  refine congrArg Except.ok ?_
  conv_rhs => rw [← Bytes.map_cut_flatten hlength, List.map_map]
  refine List.map_congr_left fun k _ ↦ congrArg Value.bytes ?_
  refine Bytes.slice_eq_cut _ (Int.natCast_mul k width).symm ?_
  rw [← Nat.succ_mul, Int.natCast_mul, Int.natCast_succ]

/-- What becomes of references that were packed as one element: they come back exactly when their
bytes are not a table of as many entries, and otherwise the entries do. -/
def Recovers (refs : List Bytes) (outcome : Except Fault (List Value)) : Prop :=
  (outcome = .ok [.list (refs.map .bytes)] ↔
    ∀ entries, IsTable refs.flatten entries → entries.length ≠ refs.length) ∧
  ∀ entries, IsTable refs.flatten entries → entries.length = refs.length →
    outcome = .ok [.list (entries.map .bytes)]

/-- Assumes: references of one width. The captured element of their bytes is interpreted as the
references, unless the bytes are a table. -/
theorem recovers_interpretAll (hrefs : refs ≠ []) (hlength : ∀ ref ∈ refs, ref.length = width) :
    Recovers refs (interpretAll (.reference width) [.mk refs.flatten refs.length none none]) := by
  have hpresent : ¬ (refs.length : Int) = 0 := fun h ↦
    hrefs (List.length_eq_zero_iff.1 (Int.ofNat_inj.1 h))
  have hdecoded {values : List Value}
      (h : decodeReferences width refs.flatten refs.length = .ok values) :
      interpretAll (.reference width) [.mk refs.flatten refs.length none none] =
        .ok [.list values] := by
    have hvalues : decode (.reference width) (.mk refs.flatten refs.length none none) =
        .ok values := h
    rw [interpretAll, interpretAll, hvalues, Captured.length, if_neg hpresent, orDefaults]
  have htables : ∀ entries, IsTable refs.flatten entries → entries.length = refs.length →
      interpretAll (.reference width) [.mk refs.flatten refs.length none none] =
        .ok [.list (entries.map .bytes)] := by
    intro entries htable hcount
    have hentries := decodeReferences_of_isTable htable width
    rw [hcount] at hentries
    exact hdecoded hentries
  refine ⟨⟨fun hback entries htable hcount ↦ ?_, fun hnone ↦ ?_⟩, htables⟩
  · -- a table takes more bytes than its entries, so they are not the references themselves
    have hsame := Except.ok.inj (hback.symm.trans (htables entries htable hcount))
    have hvalues : refs.map Value.bytes = entries.map Value.bytes :=
      Value.list.inj (List.cons.inj hsame).1
    have hbytes : refs = entries :=
      List.map_injective_iff.2 (fun _ _ h ↦ Value.bytes.inj h) hvalues
    have htaken := StringTable.length_tableBytes entries
    rw [← (StringTable.ofEntries_eq_ok_iff.1 htable).1, hbytes] at htaken
    have hcountSize : 0 < StringTable.countSize := by decide
    omega
  · exact hdecoded (decodeReferences_flatten hlength hnone)

end Captured

/-! ### Packing and capturing -/

namespace Sequence

variable {refs : List Bytes} {width : Nat}

theorem encodeReferences_eq_ok (hlength : ∀ ref ∈ refs, ref.length = width) :
    encodeReferences width (refs.map .bytes) = .ok refs.flatten := by
  have hparts : (refs.map Value.bytes).mapM (referenceBytes? width) = some refs := by
    refine Outcome.mapM_eq_some_iff.2 (List.forall₂_map_left_iff.2 ?_)
    refine List.forall₂_same.2 fun ref href ↦ Option.filter_eq_some_iff.2 ⟨rfl, ?_⟩
    simp [hlength ref href]
  rw [encodeReferences, hparts]

theorem run_encode_references (hlength : ∀ ref ∈ refs, ref.length = width) (ledger : Ledger) :
    (encode (.reference width) (.list (refs.map .bytes))).run ledger =
      (.ok refs.flatten, ledger) := by
  have hencoded := encodeReferences_eq_ok hlength
  rw [encode]
  dsimp only [Value.elements?]
  rw [Action.run_ofExcept, hencoded]

end Sequence

namespace Store

open Captured (Recovers)

variable {store : Store} {width : Nat} {refs : List Bytes} {typeId : Int}

/-- Assumes: references of one width, a heap whose next address fits a word, and no more references
than a word can count. They are packed as one sequence, captured, and recovered. -/
theorem recovers_sequence (hsound : store.heap.Sound) (hwidth : 0 < width) (hrefs : refs ≠ [])
    (hlength : ∀ ref ∈ refs, ref.length = width)
    (hbase : store.catalogue.sequenceElement typeId = .ok (.reference width))
    (hroom : store.heap.top < 256 ^ addressSize) (hcount : refs.length < 256 ^ addressSize) :
    ∃ table packed batch,
      (packSequences (.list [.list (refs.map .bytes)]) typeId).run store = (.ok table, packed) ∧
        Batch.capture packed.heap packed.catalogue table 1 typeId = .ok batch ∧
          Recovers refs batch.interpret := by
  have hvalues : refs.map Value.bytes ≠ [] := fun h ↦ hrefs (List.map_eq_nil_iff.1 h)
  have hbytes : (refs.flatten.length : Int) =
      (refs.map Value.bytes).length * (ElementType.reference width).size := by
    rw [Bytes.length_flatten_of_forall hlength, List.length_map, ElementType.size, Int.natCast_mul]
  obtain ⟨table, packed, hpack, hcapture⟩ := captures_sequence hsound hbase hvalues
    (Sequence.run_encode_references hlength) (Int.natCast_pos.2 hwidth) hbytes hroom
    (by rwa [List.length_map]) fun _ ↦ rfl
  refine ⟨table, packed, _, hpack, hcapture, ?_⟩
  rw [List.length_map]
  exact Captured.recovers_interpretAll hrefs hlength

/-- Assumes: references of one width, which take no more bytes than a buffer can have. They are
packed as one array, captured, and recovered. -/
theorem recovers_array (hrefs : refs ≠ []) (hlength : ∀ ref ∈ refs, ref.length = width)
    (hbase : store.catalogue.arrayElement typeId = .ok (.reference width, refs.length))
    (hsize : (refs.length * width : Int) < Buffer.indexLimit) :
    ∃ buffer packed batch,
      (packArrays (.list [.list (refs.map .bytes)]) typeId).run store = (.ok buffer, packed) ∧
        Batch.captureArrays packed.heap packed.catalogue buffer 1 typeId = .ok batch ∧
          Recovers refs batch.interpret := by
  have hcount : (refs.map Value.bytes).length = refs.length := List.length_map ..
  have hbytes := Bytes.length_flatten_of_forall hlength
  have hwidth := ElementType.size_array_reference width refs.length
  rw [← hbytes] at hwidth
  rw [← Int.natCast_mul, ← hbytes] at hsize
  rw [← hcount] at hbase hwidth
  obtain ⟨buffer, packed, hpack, hcapture⟩ := captures_array hbase (by simp [ElementType.typeClass])
    (Sequence.run_encode_references hlength) hwidth hsize rfl
  refine ⟨buffer, packed, _, hpack, hcapture, ?_⟩
  rw [hcount]
  exact Captured.recovers_interpretAll hrefs hlength

/-- Assumes: a library after any calls, references that are present and all of one positive width,
and either a registered type of sequences of them, as long as the next address and the number of
references fit a word, or a registered type of arrays of them, as long as their bytes fit a buffer.
Packing them as one element, capturing the packed buffer and interpreting the batch succeeds. It
gives the references back byte for byte, unless their bytes are a table of as many entries; then it
gives these entries. -/
theorem recovers_references {capacity : Nat} (hreachable : Reachable capacity store)
    (hwidth : 0 < width) (hrefs : refs ≠ []) (hlength : ∀ ref ∈ refs, ref.length = width)
    (typeId : Int) :
    (store.registry.typeOf typeId = .ok (.vlen (.reference width)) →
      store.heap.top < 256 ^ addressSize → refs.length < 256 ^ addressSize →
        ∃ table packed batch,
          (packSequences (.list [.list (refs.map .bytes)]) typeId).run store =
              (.ok table, packed) ∧
            Batch.capture packed.heap packed.catalogue table 1 typeId = .ok batch ∧
              Recovers refs batch.interpret) ∧
    (store.registry.typeOf typeId = .ok (.array (.reference width) refs.length) →
      (refs.length * width : Int) < Buffer.indexLimit →
        ∃ buffer packed batch,
          (packArrays (.list [.list (refs.map .bytes)]) typeId).run store = (.ok buffer, packed) ∧
            Batch.captureArrays packed.heap packed.catalogue buffer 1 typeId = .ok batch ∧
              Recovers refs batch.interpret) := by
  have hreference : (ElementType.reference width).WellFormed := Int.natCast_pos.2 hwidth
  have hpos : 0 < refs.length := List.length_pos_iff.2 hrefs
  refine ⟨fun htype hroom hcount ↦ ?_, fun htype hsize ↦ ?_⟩
  · exact recovers_sequence hreachable.sound.heap hwidth hrefs hlength
      (hreachable.closed.sequenceElement_eq_ok htype hreference) hroom hcount
  · exact recovers_array hrefs hlength (hreachable.closed.arrayElement_eq_ok htype
      ⟨hreference, Int.natCast_pos.2 hpos, rfl⟩) hsize

/-- A library with sequences and pairs of references of four bytes, and sequences of references of
eight bytes. -/
def linking : Store :=
  (Call.register (.vlen (.reference 8))).next <| (Call.register (.array (.reference 4) 2)).next <|
    (Call.register (.vlen (.reference 4))).next (empty 0)

theorem reachable_linking : Reachable 0 linking :=
  .next (.next (.next .refl trivial) trivial) trivial

/-- Two references that are no table come back from a sequence and from a pair. -/
theorem recovers_references_linking :
    (∃ table packed batch,
      (packSequences (.list [.list [.bytes [1, 2, 3, 4], .bytes [5, 6, 7, 8]]]) 2).run linking =
          (.ok table, packed) ∧
        Batch.capture packed.heap packed.catalogue table 1 2 = .ok batch ∧
          batch.interpret = .ok [.list [.bytes [1, 2, 3, 4], .bytes [5, 6, 7, 8]]]) ∧
    ∃ buffer packed batch,
      (packArrays (.list [.list [.bytes [1, 2, 3, 4], .bytes [5, 6, 7, 8]]]) 3).run linking =
          (.ok buffer, packed) ∧
        Batch.captureArrays packed.heap packed.catalogue buffer 1 3 = .ok batch ∧
          batch.interpret = .ok [.list [.bytes [1, 2, 3, 4], .bytes [5, 6, 7, 8]]] := by
  have hlength : ∀ ref ∈ [([1, 2, 3, 4] : Bytes), [5, 6, 7, 8]], ref.length = 4 := by decide
  have hnone : StringTable.exactEntries? [1, 2, 3, 4, 5, 6, 7, 8] 2 = none := by decide
  have hnotTable : ∀ entries, IsTable [1, 2, 3, 4, 5, 6, 7, 8] entries → entries.length ≠ 2 := by
    intro entries htable hcount
    have hsome := StringTable.exactEntries?_eq_some_iff.2 ⟨htable, congrArg Int.ofNat hcount⟩
    exact absurd (hnone.symm.trans hsome) (by simp)
  refine ⟨?_, ?_⟩
  · obtain ⟨table, packed, batch, hpack, hcapture, hback, _⟩ :=
      (recovers_references reachable_linking (by decide : 0 < 4) (by simp) hlength 2).1 rfl
        (by decide) (by decide)
    exact ⟨table, packed, batch, hpack, hcapture, hback.2 hnotTable⟩
  · obtain ⟨buffer, packed, batch, hpack, hcapture, hback, _⟩ :=
      (recovers_references reachable_linking (by decide : 0 < 4) (by simp) hlength 3).2 rfl
        (by decide)
    exact ⟨buffer, packed, batch, hpack, hcapture, hback.2 hnotTable⟩

/-- A single reference whose bytes are the table of one empty entry does not come back: the empty
entry comes in its place. -/
theorem single_reference_not_recovered : ∃ table packed batch,
    (packSequences (.list [.list [.bytes [1, 0, 0, 0, 0, 0, 0, 0]]]) 5).run linking =
        (.ok table, packed) ∧
      Batch.capture packed.heap packed.catalogue table 1 5 = .ok batch ∧
        batch.interpret = .ok [.list [.bytes []]] ∧
          batch.interpret ≠ .ok [.list [.bytes [1, 0, 0, 0, 0, 0, 0, 0]]] := by
  have hlength : ∀ ref ∈ [([1, 0, 0, 0, 0, 0, 0, 0] : Bytes)], ref.length = 8 := by decide
  have htable : IsTable [1, 0, 0, 0, 0, 0, 0, 0] [[]] := by rfl
  have htype : linking.registry.typeOf 5 = .ok (.vlen (.reference ((8 : Nat) : Int))) := rfl
  obtain ⟨table, packed, batch, hpack, hcapture, _, hentries⟩ :=
    recovers_sequence reachable_linking.sound.heap (by decide : 0 < 8) (by simp) hlength
      (reachable_linking.closed.sequenceElement_eq_ok htype (by decide : (0 : Int) < 8))
      (by decide) (by decide)
  have hempty := hentries [[]] htable rfl
  refine ⟨table, packed, batch, hpack, hcapture, hempty, ?_⟩
  rw [hempty]
  simp

end Store

end Stowage
