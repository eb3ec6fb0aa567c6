import Stowage.Proofs.Record.Reading
import Stowage.Proofs.Store.Packers

/-!
# One packed element

One list of values is packed as a sequence by placing its payload behind a length and an address,
and as an array by copying its payload. When laying the payload out allocates nothing, the packed
buffer is captured as one element with this payload (`Store.captures_sequence`,
`Store.captures_array`), and when it is refused, nothing was changed
(`Store.packSequences_refused`, `Store.packArrays_refused`).
-/

set_option autoImplicit false

namespace Stowage

/-! ### Packing -/

namespace Sequence

variable {heap : Heap} {catalogue : Catalogue} {typeId : Int} {base : ElementType}
  {values : List Value} {payload : Bytes} {fault : Fault}

/-- Assumes: an address that fits a word, and no more values than a word can count. A payload is
packed as one sequence by placing it. -/
theorem run_packSequences_single (hsound : heap.Sound)
    (hbase : catalogue.sequenceElement typeId = .ok base) (hvalues : values ≠ [])
    (hencode : ∀ ledger, (encode base (.list values)).run ledger = (.ok payload, ledger))
    (hroom : heap.top < 256 ^ addressSize) (hcount : values.length < 256 ^ addressSize) :
    (packSequences catalogue (.list [.list values]) typeId).run heap =
      (.ok (Buffer.entryBytes values.length heap.top, [heap.top]),
        heap.extend (Bytes.padTo 1 payload)) := by
  have hpresent : (!(Value.list values).isTruthy) = false := by
    rw [Bool.not_eq_false']
    simpa [Value.isTruthy] using hvalues
  have hplaced : (placeSequence (encode base) (.list values)).run ⟨heap, []⟩ =
      (.ok (values.length, heap.top), ⟨heap.extend (Bytes.padTo 1 payload), [heap.top]⟩) := by
    have haddress := Buffer.wordNumber_eq_ok.2 ⟨hroom, rfl⟩
    have hnumber := Buffer.wordNumber_eq_ok.2 ⟨hcount, rfl⟩
    rw [placeSequence, hpresent, if_neg Bool.false_ne_true, Action.run_bind_ok (hencode _),
      Action.run_bind, Ledger.place_eq hsound, haddress]
    dsimp only [Value.elements?, Option.getD]
    rw [hnumber]
    rfl
  have hcollected : (Action.collect (placeSequence (encode base)) [.list values]).run ⟨heap, []⟩ =
      (.ok [(values.length, heap.top)],
        ⟨heap.extend (Bytes.padTo 1 payload), [heap.top]⟩) := by
    rw [Action.collect, Action.run_bind_ok hplaced]
    rfl
  rw [packSequences, Action.run_ofExcept_bind_ok hbase]
  refine (Ledger.run_settle_ok (Action.run_bind_ok hcollected _)).trans ?_
  rw [List.flatMap_cons, List.flatMap_nil, List.append_nil]

theorem run_packSequences_single_error
    (hbase : catalogue.sequenceElement typeId = .ok base) (hvalues : values ≠ [])
    (hencode : ∀ ledger, (encode base (.list values)).run ledger = (.error fault, ledger)) :
    (packSequences catalogue (.list [.list values]) typeId).run heap = (.error fault, heap) := by
  have hpresent : (!(Value.list values).isTruthy) = false := by
    rw [Bool.not_eq_false']
    simpa [Value.isTruthy] using hvalues
  have hplaced : (placeSequence (encode base) (.list values)).run ⟨heap, []⟩ =
      (.error fault, ⟨heap, []⟩) := by
    rw [placeSequence, hpresent, if_neg Bool.false_ne_true, Action.run_bind_error (hencode _)]
  have hcollected : (Action.collect (placeSequence (encode base)) [.list values]).run ⟨heap, []⟩ =
      (.error fault, ⟨heap, []⟩) := by
    rw [Action.collect, Action.run_bind_error hplaced]
  rw [packSequences, Action.run_ofExcept_bind_ok hbase]
  exact Ledger.run_settle_error (Action.run_bind_error hcollected _) rfl

/-- The buffer that one array is packed into. -/
theorem zeroed_single {size : Nat} (hlimit : (size : Int) < Buffer.indexLimit) :
    Buffer.zeroed (([Value.list values].length : Int) * (size : Int)) = .ok (Bytes.zeros size) := by
  refine Buffer.zeroed_eq_ok.2 ⟨?_, ?_, ?_⟩ <;> rw [List.length_singleton]
  · omega
  · omega
  · congr 1
    omega

/-- Assumes: an array type of as many values as there are, and a buffer of its size. A payload is
packed as one array by copying it. -/
theorem run_packArrays_single (heap : Heap)
    (hbase : catalogue.arrayElement typeId = .ok (base, values.length))
    (hencode : ∀ ledger, (encode base (.list values)).run ledger = (.ok payload, ledger))
    (hsize : (ElementType.array base values.length).size = payload.length)
    (hlimit : (payload.length : Int) < Buffer.indexLimit) :
    (packArrays catalogue (.list [.list values]) typeId).run heap = (.ok (payload, []), heap) := by
  have hpacked : (packArraysFrom base values.length payload.length 0 [.list values]
      (Bytes.zeros payload.length)).run ⟨heap, []⟩ = (.ok payload, ⟨heap, []⟩) := by
    have hsplice := Bytes.splice_eq_overwrite (rfl : payload.length = payload.length)
      (Nat.le_of_eq (by rw [Bytes.length_zeros, Nat.zero_add]) :
        0 + payload.length ≤ (Bytes.zeros payload.length).length)
    rw [Bytes.overwrite_zero (Bytes.length_zeros payload.length).symm] at hsplice
    have hstart : ((0 : Nat) : Int) * (payload.length : Int) = ((0 : Nat) : Int) := Int.zero_mul _
    have hstop : (((0 : Nat) : Int) + 1) * (payload.length : Int) =
        ((0 : Nat) : Int) + (payload.length : Int) := by
      omega
    rw [packArraysFrom]
    · dsimp only [Value.elements?]
      rw [if_neg fun hne ↦ hne rfl, Action.run_bind_ok (hencode _), packArraysFrom, hstart, hstop,
        hsplice]
      rfl
    · simp
  rw [packArrays, Action.run_ofExcept_bind_ok hbase]
  dsimp only [Value.elements?]
  rw [hsize, Action.run_ofExcept_bind_ok (zeroed_single hlimit)]
  exact Ledger.run_settle_ok hpacked

theorem run_packArrays_single_error (heap : Heap)
    (hbase : catalogue.arrayElement typeId = .ok (base, values.length))
    (hencode : ∀ ledger, (encode base (.list values)).run ledger = (.error fault, ledger))
    {size : Nat} (hsize : (ElementType.array base values.length).size = size)
    (hlimit : (size : Int) < Buffer.indexLimit) :
    (packArrays catalogue (.list [.list values]) typeId).run heap = (.error fault, heap) := by
  have hpacked : (packArraysFrom base values.length size 0 [.list values]
      (Bytes.zeros size)).run ⟨heap, []⟩ = (.error fault, ⟨heap, []⟩) := by
    rw [packArraysFrom]
    · dsimp only [Value.elements?]
      rw [if_neg fun hne ↦ hne rfl, Action.run_bind_error (hencode _)]
    · simp
  rw [packArrays, Action.run_ofExcept_bind_ok hbase]
  dsimp only [Value.elements?]
  rw [hsize, Action.run_ofExcept_bind_ok (zeroed_single hlimit)]
  exact Ledger.run_settle_error hpacked rfl

end Sequence

/-! ### Capturing -/

namespace Batch

/-- A table with one length and address is captured as one element. -/
theorem capture_single {heap : Heap} {catalogue : Catalogue} {table : Bytes} {typeId : Int}
    {base : ElementType} {captured : Captured} {length address : Nat}
    (hbase : catalogue.sequenceElement typeId = .ok base) (htable : table.length = entrySize)
    (hload : Buffer.loadEntry table 0 = .ok (length, address))
    (hcaptured : Captured.captureEntry heap base.size (Captured.captureItems heap base) length
      address = .ok captured) :
    capture heap catalogue table 1 typeId = .ok ⟨typeId, base, [captured]⟩ := by
  have henough : ¬ (table.length : Int) < 1 * (entrySize : Int) := by omega
  have hfirst : Buffer.loadEntry table (((0 : Nat) : Int) * (entrySize : Int)) =
      .ok (length, address) := by
    rw [Int.natCast_zero, Int.zero_mul]
    exact hload
  have helements : capture.captureTable heap base table 0 1 = .ok [captured] := by
    rw [capture.captureTable, hfirst, Outcome.ok_bind]
    dsimp only
    rw [hcaptured, Outcome.ok_bind]
    rfl
  rw [capture, if_neg henough, hbase, Outcome.ok_bind, Int.toNat_one, helements]
  rfl

/-- A buffer with one array is captured as one element. -/
theorem captureArrays_single {heap : Heap} {catalogue : Catalogue} {buffer : Bytes} {typeId : Int}
    {base : ElementType} {captured : Captured} {length : Int}
    (hbase : catalogue.arrayElement typeId = .ok (base, length))
    (hflat : base.typeClass ≠ .array)
    (hsize : (ElementType.array base length).size = buffer.length)
    (hcaptured : Captured.captureItems heap base buffer length = .ok captured) :
    captureArrays heap catalogue buffer 1 typeId = .ok ⟨typeId, base, [captured]⟩ := by
  have hwhole : Bytes.slice buffer (((0 : Nat) : Int) * (buffer.length : Int))
      ((((0 : Nat) : Int) + 1) * (buffer.length : Int)) = buffer := by
    have hstop : (((0 : Nat) : Int) + 1) * (buffer.length : Int) =
        ((0 + buffer.length : Nat) : Int) := by
      omega
    have hstart : ((0 : Nat) : Int) * (buffer.length : Int) = ((0 : Nat) : Int) := Int.zero_mul _
    rw [Bytes.slice_eq_cut buffer hstart hstop, Bytes.cut, List.drop_zero, List.take_length]
  have henough : ¬ (buffer.length : Int) < 1 * (buffer.length : Int) := by omega
  have helements : ((List.range (1 : Int).toNat).mapM fun (i : Nat) ↦
      Captured.captureItems heap base (Bytes.slice buffer (i * (buffer.length : Int))
        ((i + 1) * (buffer.length : Int))) length) = .ok [captured] := by
    rw [Int.toNat_one, List.range_one, Outcome.mapM_cons_ok, hwhole, hcaptured]
    rfl
  rw [captureArrays, hbase, Outcome.ok_bind]
  dsimp only
  rw [hsize, if_neg henough, helements]
  split
  · exact absurd rfl hflat
  · rfl

end Batch

/-! ### Packing and capturing -/

namespace Store

variable {store : Store} {typeId : Int} {base : ElementType} {values : List Value}
  {payload : Bytes} {captured : Captured} {fault : Fault}

/-- Assumes: values of positive size whose payload is laid out without placing anything, an address
that fits a word, and no more values than a word can count. They are packed as one sequence and
captured as one element with their payload. -/
theorem captures_sequence (hsound : store.heap.Sound)
    (hbase : store.catalogue.sequenceElement typeId = .ok base) (hvalues : values ≠ [])
    (hencode : ∀ ledger, (Sequence.encode base (.list values)).run ledger = (.ok payload, ledger))
    (hwidth : 0 < base.size) (hlength : (payload.length : Int) = values.length * base.size)
    (hroom : store.heap.top < 256 ^ addressSize) (hcount : values.length < 256 ^ addressSize)
    (hitems : ∀ heap, Captured.captureItems heap base payload values.length = .ok captured) :
    ∃ table packed,
      (packSequences (.list [.list values]) typeId).run store = (.ok table, packed) ∧
        Batch.capture packed.heap packed.catalogue table 1 typeId =
          .ok ⟨typeId, base, [captured]⟩ := by
  have hpack := Sequence.run_packSequences_single hsound hbase hvalues hencode hroom hcount
  have hrun : (packSequences (.list [.list values]) typeId).run store =
      (.ok (Buffer.entryBytes values.length store.heap.top),
        { store with heap := store.heap.extend (Bytes.padTo 1 payload) }) := by
    change (onHeap _).run store = _
    rw [onHeap, Action.run_within, Action.run_map, hpack]
    rfl
  have hload : Buffer.loadEntry (Buffer.entryBytes values.length store.heap.top) 0 =
      .ok (values.length, store.heap.top) := by
    have hentry := Buffer.loadEntry_eq
      (Nat.le_of_eq (Buffer.length_entryBytes values.length store.heap.top).symm : 0 + 16 ≤ _)
    have hcut : Bytes.cut (Buffer.entryBytes values.length store.heap.top) 0 16 =
        Buffer.entryBytes values.length store.heap.top := by
      rw [Bytes.cut, List.drop_zero]
      exact List.take_of_length_le (Nat.le_of_eq (Buffer.length_entryBytes _ _))
    have haddress : Bytes.toNat (Bytes.ofNat 8 store.heap.top) = store.heap.top :=
      Bytes.ofNat_eq_of_lt hroom
    rw [hcut, Buffer.toNat_cut_entryBytes_length _ hcount, Buffer.toNat_cut_entryBytes_address,
      haddress] at hentry
    exact hentry
  have hpos : 0 < values.length := List.length_pos_iff.2 hvalues
  have hsome : payload.isEmpty = false := by
    have hbytes : (0 : Int) < payload.length := by
      rw [hlength]
      exact Int.mul_pos (Int.natCast_pos.2 hpos) hwidth
    rw [List.isEmpty_eq_false_iff, ← List.length_pos_iff]
    exact Int.natCast_pos.1 hbytes
  have hread := Heap.read_place hsound payload
  rw [hlength] at hread
  have hcopy : Captured.copyPayload (store.heap.extend (Bytes.padTo 1 payload)) base.size
      (values.length : Int) (store.heap.top : Int) = .ok payload := by
    rw [Captured.copyPayload, if_pos hwidth, Captured.copyWith, hread]
  have hcaptured : Captured.captureEntry (store.heap.extend (Bytes.padTo 1 payload)) base.size
      (Captured.captureItems (store.heap.extend (Bytes.padTo 1 payload)) base)
      values.length store.heap.top = .ok captured := by
    rw [Captured.captureEntry, if_neg, hcopy, Outcome.ok_bind, hsome, if_neg Bool.false_ne_true]
    · exact hitems _
    · rintro (hzero | hnull)
      · omega
      · exact hsound.top_ne_null hnull
  exact ⟨_, _, hrun, Batch.capture_single hbase (Buffer.length_entryBytes _ _) hload hcaptured⟩

theorem packSequences_refused
    (hbase : store.catalogue.sequenceElement typeId = .ok base) (hvalues : values ≠ [])
    (hencode : ∀ ledger, (Sequence.encode base (.list values)).run ledger =
      (.error fault, ledger)) :
    (packSequences (.list [.list values]) typeId).run store = (.error fault, store) := by
  change (onHeap _).run store = _
  rw [onHeap, Action.run_within, Action.run_map,
    Sequence.run_packSequences_single_error hbase hvalues hencode]
  rfl

/-- Assumes: an array type of as many values as there are, which are not arrays, and whose payload
is laid out without placing anything and is not too long for a buffer. They are packed as one array
and captured as one element with their payload. -/
theorem captures_array
    (hbase : store.catalogue.arrayElement typeId = .ok (base, values.length))
    (hflat : base.typeClass ≠ .array)
    (hencode : ∀ ledger, (Sequence.encode base (.list values)).run ledger = (.ok payload, ledger))
    (hsize : (ElementType.array base values.length).size = payload.length)
    (hlimit : (payload.length : Int) < Buffer.indexLimit)
    (hitems : Captured.captureItems store.heap base payload values.length = .ok captured) :
    ∃ buffer packed,
      (packArrays (.list [.list values]) typeId).run store = (.ok buffer, packed) ∧
        Batch.captureArrays packed.heap packed.catalogue buffer 1 typeId =
          .ok ⟨typeId, base, [captured]⟩ := by
  have hrun : (packArrays (.list [.list values]) typeId).run store = (.ok payload, store) := by
    change (onHeap _).run store = _
    rw [onHeap, Action.run_within, Action.run_map,
      Sequence.run_packArrays_single store.heap hbase hencode hsize hlimit]
    rfl
  exact ⟨_, _, hrun, Batch.captureArrays_single hbase hflat hsize hitems⟩

theorem packArrays_refused
    (hbase : store.catalogue.arrayElement typeId = .ok (base, values.length))
    (hencode : ∀ ledger, (Sequence.encode base (.list values)).run ledger = (.error fault, ledger))
    {size : Nat} (hsize : (ElementType.array base values.length).size = size)
    (hlimit : (size : Int) < Buffer.indexLimit) :
    (packArrays (.list [.list values]) typeId).run store = (.error fault, store) := by
  change (onHeap _).run store = _
  rw [onHeap, Action.run_within, Action.run_map,
    Sequence.run_packArrays_single_error store.heap hbase hencode hsize hlimit]
  rfl

end Store

end Stowage
