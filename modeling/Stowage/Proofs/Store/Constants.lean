import Stowage.Proofs.Number.Items
import Stowage.Proofs.Record.Disjointness
import Stowage.Proofs.Store.Single

/-!
# Named constants are recovered when they fit

The values of an enumeration come from descriptor text, given or counted on, and are not compared
with the integers that its backing type can store. A constant whose value fits is packed by its name
and comes back as its value; one whose value does not is refused when it is packed, and nothing
changes. This holds for sequences and for arrays of constants (`Store.recovers_constants`).
-/

set_option autoImplicit false

namespace Stowage

/-! ### Integers of a backing type -/

namespace NumberType

variable {type : NumberType}

/-- Integers that the type can store are stored, and loaded as they are. -/
theorem exists_storeAll_ints (hinteger : type.isInteger = true) {ints : List Int}
    (hrange : ∀ i ∈ ints, inRange type.size i = true) :
    ∃ bytes, type.storeAll (ints.map .int) = .ok bytes ∧
      bytes.length = ints.length * type.size ∧
        type.loadAll ints.length bytes = ints.map .int := by
  induction ints with
  | nil => exact ⟨[], rfl, (Nat.zero_mul _).symm, rfl⟩
  | cons i rest ih =>
    obtain ⟨hfirst, hrest⟩ := List.forall_mem_cons.1 hrange
    obtain ⟨others, hothers, hlength, hloaded⟩ := ih hrest
    have hstore : type.store (.int i) = .ok (storeInteger type.size i) := by
      cases type with
      | int8 | int16 | int32 | int64 => exact if_pos hfirst
      | float32 | float64 => exact absurd hinteger (by decide)
    obtain ⟨j, hj, _, hkept⟩ := kept_of_store_integer hinteger hstore
    obtain rfl : i = j := Option.some.inj hj
    have hwidth := length_of_store hstore
    refine ⟨_, storeAll_cons_eq_ok.2 ⟨_, _, hstore, hothers, rfl⟩, ?_, ?_⟩
    · rw [List.length_append, hwidth, hlength, List.length_cons, Nat.succ_mul, Nat.add_comm]
    · rw [List.length_cons, loadAll, List.take_left' hwidth, List.drop_left' hwidth,
        load_of_store hstore, hkept, hloaded, List.map_cons]

/-- Integers are not stored when the type cannot store one of them. -/
theorem storeAll_ints_refused (hinteger : type.isInteger = true) {ints : List Int}
    (hrange : ∃ i ∈ ints, inRange type.size i = false) :
    type.storeAll (ints.map .int) = .error .storage := by
  have hstore (i : Int) : type.store (.int i) =
      if inRange type.size i then .ok (storeInteger type.size i) else .error .storage := by
    cases type with
    | int8 | int16 | int32 | int64 => rfl
    | float32 | float64 => exact absurd hinteger (by decide)
  induction ints with
  | nil =>
    obtain ⟨i, hi, _⟩ := hrange
    exact absurd hi List.not_mem_nil
  | cons i rest ih =>
    rw [List.map_cons, storeAll, hstore]
    obtain ⟨j, hj, hout⟩ := hrange
    rcases List.mem_cons.1 hj with rfl | hj
    · rw [hout, if_neg Bool.false_ne_true]
    · rw [ih ⟨j, hj, hout⟩]
      by_cases hfirst : inRange type.size i = true
      · rw [if_pos hfirst]
      · rw [if_neg hfirst]

end NumberType

/-! ### Constants by name -/

/-- The value of a constant is found by its name when no other constant has this name. -/
theorem ElementType.valueOf_of_mem {constants : List (String × Int)}
    (hnames : (constants.map (·.1)).Nodup) {constant : String × Int} (h : constant ∈ constants) :
    valueOf constants constant.1 = .ok constant.2 := by
  unfold valueOf
  split
  · next name value hfind =>
    have hname : (name, value).1 = constant.1 := by simpa using List.find?_some hfind
    rw [← List.inj_on_of_nodup_map hnames (List.mem_of_find?_eq_some hfind) h hname]
  · next hfind => exact absurd (beq_self_eq_true constant.1) (List.find?_eq_none.1 hfind constant h)

namespace Sequence

variable {backing : NumberType} {constants chosen : List (String × Int)}

theorem resolveConstants_names (hnames : (constants.map (·.1)).Nodup)
    (hchosen : ∀ c ∈ chosen, c ∈ constants) :
    resolveConstants constants (chosen.map fun c ↦ .text c.1) =
      .ok ((chosen.map (·.2)).map .int) := by
  induction chosen with
  | nil => rfl
  | cons c rest ih =>
    obtain ⟨hc, hrest⟩ := List.forall_mem_cons.1 hchosen
    rw [List.map_cons, resolveConstants]
    dsimp only
    rw [ElementType.valueOf_of_mem hnames hc, ih hrest]
    rfl

/-- Constants given by name are laid out as the numbers they stand for. -/
theorem run_encode_names (hnames : (constants.map (·.1)).Nodup)
    (hchosen : ∀ c ∈ chosen, c ∈ constants) (ledger : Ledger) :
    (encode (.enum backing constants) (.list (chosen.map fun c ↦ .text c.1))).run ledger =
      (encodeNumbers (ElementType.enum backing constants).name backing
        ((chosen.map (·.2)).map .int), ledger) := by
  rw [encode]
  dsimp only [Value.elements?]
  rw [Action.run_ofExcept, resolveConstants_names hnames hchosen, Outcome.ok_bind]

/-- No integer is missing. -/
theorem map_present_ints (type : NumberType) (ints : List Int) :
    (ints.map Value.int).map type.present = ints.map .int := by
  rw [List.map_map]
  rfl

/-- Constants that fit are laid out as their values. -/
theorem encode_constants (hinteger : backing.isInteger = true)
    (hnames : (constants.map (·.1)).Nodup) (hchosen : ∀ c ∈ chosen, c ∈ constants)
    (hrange : ∀ c ∈ chosen, NumberType.inRange backing.size c.2 = true) :
    ∃ payload, (∀ ledger, (encode (.enum backing constants)
        (.list (chosen.map fun c ↦ .text c.1))).run ledger = (.ok payload, ledger)) ∧
      payload.length = chosen.length * backing.size ∧
        backing.loadAll chosen.length payload = chosen.map fun c ↦ .int c.2 := by
  obtain ⟨payload, hstored, hlength, hloaded⟩ :=
    NumberType.exists_storeAll_ints hinteger (List.forall_mem_map.2 hrange)
  rw [List.length_map] at hlength hloaded
  refine ⟨payload, fun ledger ↦ ?_, hlength, ?_⟩
  · rw [run_encode_names hnames hchosen, encodeNumbers, map_present_ints, hstored]
  · rw [hloaded, List.map_map]
    rfl

/-- Constants one of which does not fit are refused. -/
theorem encode_constants_refused (hinteger : backing.isInteger = true)
    (hnames : (constants.map (·.1)).Nodup) (hchosen : ∀ c ∈ chosen, c ∈ constants)
    (hrange : ∃ c ∈ chosen, NumberType.inRange backing.size c.2 = false) (ledger : Ledger) :
    (encode (.enum backing constants) (.list (chosen.map fun c ↦ .text c.1))).run ledger =
      (.error (.conversion (.values (ElementType.enum backing constants).name)), ledger) := by
  obtain ⟨c, hc, hout⟩ := hrange
  have hrefused : backing.storeAll ((chosen.map (·.2)).map .int) = .error .storage :=
    NumberType.storeAll_ints_refused hinteger ⟨c.2, List.mem_map_of_mem hc, hout⟩
  rw [run_encode_names hnames hchosen, encodeNumbers, map_present_ints, hrefused]

end Sequence

/-- The values of constants, back to back, are interpreted as these values. -/
theorem Captured.interpretAll_constants {backing : NumberType}
    {constants chosen : List (String × Int)} {payload : Bytes} (hpresent : chosen ≠ [])
    (hlength : payload.length = chosen.length * backing.size)
    (hloaded : backing.loadAll chosen.length payload = chosen.map fun c ↦ .int c.2) :
    interpretAll (.enum backing constants) [.mk payload chosen.length none none] =
      .ok [.list (chosen.map fun c ↦ .int c.2)] := by
  have hcount : ¬ (chosen.length : Int) = 0 := fun h ↦
    hpresent (List.length_eq_zero_iff.1 (Int.ofNat_inj.1 h))
  have hdecoded : decode (.enum backing constants) (.mk payload chosen.length none none) =
      .ok (chosen.map fun c ↦ .int c.2) := by
    have henough : ¬ (payload.length : Int) < chosen.length * backing.size := by
      rw [hlength, Int.natCast_mul]
      omega
    rw [decode, decodeNumbers, if_neg henough, if_neg (by omega), Int.toNat_natCast, hloaded]
  rw [interpretAll, interpretAll, hdecoded, Captured.length, if_neg hcount, orDefaults]

namespace Store

variable {store : Store} {backing : NumberType} {constants chosen : List (String × Int)}
  {typeId : Int}

/-- Constants given by name come back as their values, if all of these are in the range of the
backing type; otherwise packing them is refused because of their values, and nothing changes. -/
structure RecoversConstants (store : Store) (backing : NumberType)
    (constants chosen : List (String × Int)) (pack : Action Store Bytes)
    (capture : Store → Bytes → Except Fault Batch) : Prop where
  /-- All values fit. -/
  recovered : (∀ c ∈ chosen, NumberType.inRange backing.size c.2 = true) →
    ∃ buffer packed batch, pack.run store = (.ok buffer, packed) ∧
      capture packed buffer = .ok batch ∧
        batch.interpret = .ok [.list (chosen.map fun c ↦ .int c.2)]
  /-- A value does not fit. -/
  refused : (∃ c ∈ chosen, NumberType.inRange backing.size c.2 = false) →
    pack.run store =
      (.error (.conversion (.values (ElementType.enum backing constants).name)), store)

/-- Assumes: a library after any calls, an enumeration in a type that descriptor text describes or
defines, some of its constants, and either a registered type of sequences of the enumeration, as
long as the next address and the number of constants fit a word, or a registered type of arrays of
it, as long as their bytes fit a buffer. The constants are packed by their names as one element and
recovered exactly when their values are in the range of the backing type. -/
theorem recovers_constants {capacity : Nat} (hreachable : Reachable capacity store)
    {type : ElementType} (haccepts : Descriptor.Accepts type)
    (hcontains : type.Contains (.enum backing constants)) (hpresent : chosen ≠ [])
    (hchosen : ∀ c ∈ chosen, c ∈ constants) (typeId : Int) :
    (store.registry.typeOf typeId = .ok (.vlen (.enum backing constants)) →
      store.heap.top < 256 ^ addressSize → chosen.length < 256 ^ addressSize →
        RecoversConstants store backing constants chosen
          (packSequences (.list [.list (chosen.map fun c ↦ .text c.1)]) typeId)
          fun packed table ↦ Batch.capture packed.heap packed.catalogue table 1 typeId) ∧
    (store.registry.typeOf typeId = .ok (.array (.enum backing constants) chosen.length) →
      (chosen.length * backing.size : Int) < Buffer.indexLimit →
        RecoversConstants store backing constants chosen
          (packArrays (.list [.list (chosen.map fun c ↦ .text c.1)]) typeId)
          fun packed buffer ↦
            Batch.captureArrays packed.heap packed.catalogue buffer 1 typeId) := by
  have hwellFormed : (ElementType.enum backing constants).WellFormed :=
    haccepts.wellFormed_of_contains hcontains
  obtain ⟨hinteger, _, hnames⟩ := id hwellFormed
  have hvalues : chosen.map (fun c ↦ Value.text c.1) ≠ [] := fun h ↦
    hpresent (List.map_eq_nil_iff.1 h)
  have hcount : (chosen.map fun c ↦ Value.text c.1).length = chosen.length := List.length_map ..
  refine ⟨fun htype hroom hfits ↦ ?_, fun htype hlimit ↦ ?_⟩
  · have hbase := hreachable.closed.sequenceElement_eq_ok htype hwellFormed
    constructor
    · intro hrange
      obtain ⟨payload, hencode, hlength, hloaded⟩ :=
        Sequence.encode_constants hinteger hnames hchosen hrange
      obtain ⟨table, packed, hpack, hcapture⟩ := captures_sequence hreachable.sound.heap hbase
        hvalues hencode (ElementType.size_pos hwellFormed)
        (by rw [hlength, hcount, ElementType.size, Int.natCast_mul]) hroom
        (by rwa [hcount]) fun _ ↦ rfl
      refine ⟨table, packed, _, hpack, hcapture, ?_⟩
      rw [hcount]
      exact Captured.interpretAll_constants hpresent hlength hloaded
    · intro hrange
      exact packSequences_refused hbase hvalues
        (Sequence.encode_constants_refused hinteger hnames hchosen hrange)
  · have hpos : 0 < chosen.length := List.length_pos_iff.2 hpresent
    have hbase := hreachable.closed.arrayElement_eq_ok htype
      ⟨hwellFormed, Int.natCast_pos.2 hpos, rfl⟩
    have hsize : (ElementType.array (.enum backing constants) chosen.length).size =
        (chosen.length * backing.size : Nat) := by
      rw [ElementType.size, ElementType.size, Int.natCast_mul, Int.mul_comm]
    rw [← Int.natCast_mul] at hlimit
    rw [← hcount] at hbase hsize
    constructor
    · intro hrange
      obtain ⟨payload, hencode, hlength, hloaded⟩ :=
        Sequence.encode_constants hinteger hnames hchosen hrange
      rw [hcount, ← hlength, ← hcount] at hsize
      obtain ⟨buffer, packed, hpack, hcapture⟩ := captures_array hbase
        (by simp [ElementType.typeClass]) hencode hsize (by rwa [hlength]) rfl
      refine ⟨buffer, packed, _, hpack, hcapture, ?_⟩
      rw [hcount]
      exact Captured.interpretAll_constants hpresent hlength hloaded
    · intro hrange
      refine packArrays_refused hbase
        (Sequence.encode_constants_refused hinteger hnames hchosen hrange) hsize ?_
      rwa [hcount]

/-- The marks of a gauge; the last one is counted on past the end of its backing type. -/
def marks : List (String × Int) := [("low", -128), ("last", 127), ("next", 128)]

/-- The text that describes the gauge. -/
def gaugeText : String := "enum<int8> \x7b low = -128, last = 127, next \x7d"

theorem parse_gaugeText : Descriptor.parse gaugeText = .ok (.enum .int8 marks) := by decide +kernel

/-- A library with sequences and pairs of marks. -/
def gauging : Store :=
  (Call.register (.array (.enum .int8 marks) 2)).next <|
    (Call.register (.vlen (.enum .int8 marks))).next (empty 0)

/-- The marks at both ends of the backing type come back from a sequence and from a pair. -/
theorem recovers_constants_gauging :
    (∃ table packed batch,
      (packSequences (.list [.list [.text "low", .text "last"]]) 2).run gauging =
          (.ok table, packed) ∧
        Batch.capture packed.heap packed.catalogue table 1 2 = .ok batch ∧
          batch.interpret = .ok [.list [.int (-128), .int 127]]) ∧
    ∃ buffer packed batch,
      (packArrays (.list [.list [.text "low", .text "last"]]) 3).run gauging =
          (.ok buffer, packed) ∧
        Batch.captureArrays packed.heap packed.catalogue buffer 1 3 = .ok batch ∧
          batch.interpret = .ok [.list [.int (-128), .int 127]] := by
  have hreachable : Reachable 0 gauging := .next (.next .refl trivial) trivial
  have hchosen : ∀ c ∈ [("low", (-128 : Int)), ("last", 127)], c ∈ marks := by decide
  have hrange : ∀ c ∈ [("low", (-128 : Int)), ("last", 127)],
      NumberType.inRange NumberType.int8.size c.2 = true := by decide
  have hrecovers (typeId : Int) := recovers_constants hreachable (.inl ⟨_, parse_gaugeText⟩) .refl
    (by simp) hchosen typeId
  exact ⟨((hrecovers 2).1 rfl (by decide) (by decide)).recovered hrange,
    ((hrecovers 3).2 rfl (by decide)).recovered hrange⟩

/-- The mark behind the last one is accepted in the text and has a value that the backing type
cannot store, so packing it is refused. -/
theorem counted_constant_refused :
    Descriptor.parse gaugeText = .ok (.enum .int8 marks) ∧ ("next", 128) ∈ marks ∧
      NumberType.inRange NumberType.int8.size 128 = false ∧
        (packSequences (.list [.list [.text "next"]]) 2).run gauging =
          (.error (.conversion (.values "enum<int8> \x7b low, last, next \x7d")), gauging) :=
  ⟨parse_gaugeText, by decide, by decide, by decide +kernel⟩

end Store

end Stowage
