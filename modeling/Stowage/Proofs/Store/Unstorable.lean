import Stowage.Proofs.Array.Unstorable
import Stowage.Proofs.Store.Spoiling

/-!
# Numbers that cannot be packed

A number stands in the items of a sequence or an array, in a field of a record, or inside sequences
of these (`ElementType.NumberAt`). When a packing succeeds, the same packing with one such number
replaced by a value that its type cannot store is refused, since up to that number both do the same
(`Store.Packer.work_of_replaced`). The refusal is a conversion fault, or the overflow of a finite
floating point number beyond the 32-bit range, which no packer converts.
-/

set_option autoImplicit false

namespace Stowage

open Value (Replaced)

open Ledger (Spoils spoils_ofExcept spoils_refuse spoils_bind spoils_collect)

variable {type : NumberType} {part : Value} {cause : Fault}

/-! ### Records -/

namespace RecordLayout

variable {attached : Bool} {field : Member}

/-- The path leads to a number of the type in a record. -/
def NumberAt (type : NumberType) (layout : RecordLayout) (path : List Nat) : Prop :=
  ∃ record k field, path = [record, k] ∧ layout.fields[k]? = some field ∧
    field.type = .number type

/-- A field refuses a value that its type cannot store, wherever it takes another one. -/
theorem packNumber_of_refused (hnull : part ≠ .null) (hstore : type.store part = .error cause)
    {name : String} {position : Int} {value : Value} {out result : Bytes}
    (h : packNumber name type position value out = .ok result) :
    ∃ fault, packNumber name type position part out = .error fault ∧ type.Refuses part fault := by
  have hroom : ∃ word, Buffer.wordBytes out position type.size = .ok word := by
    rcases hword : Buffer.wordBytes out position type.size with fault | word
    · simp only [packNumber, hword, Outcome.error_bind] at h
      split at h <;> exact absurd h (by simp)
    · exact ⟨word, rfl⟩
  obtain ⟨word, hword⟩ := hroom
  have hpresent : type.present part = part := by
    cases part with
    | null => exact absurd rfl hnull
    | _ => rfl
  simp only [packNumber, hword, Outcome.ok_bind, hpresent, hstore, Outcome.error_bind]
  rcases NumberType.store_eq_error hstore with ⟨hexceeds, rfl⟩ | ⟨hfits, rfl⟩
  · exact ⟨_, rfl, .inl ⟨hexceeds, rfl⟩⟩
  · exact ⟨_, rfl, .inr ⟨hfits, _, rfl⟩⟩

theorem spoils_packField (hnull : part ≠ .null) (hstore : type.store part = .error cause)
    (htype : field.type = .number type) (base : Int) (value : Value) (out : Bytes) :
    Spoils (type.Refuses part) (packField attached base field value out)
      (packField attached base field part out) := by
  simp only [packField, htype]
  exact spoils_ofExcept fun _ hpacked ↦ packNumber_of_refused hnull hstore hpacked

theorem spoils_packFields (hnull : part ≠ .null) (hstore : type.store part = .error cause)
    {fields : List Member} {before : List Value} (hfield : fields[before.length]? = some field)
    (htype : field.type = .number type) (base : Int) (value : Value) (after : List Value)
    (out : Bytes) :
    Spoils (type.Refuses part) (packFields attached base fields (before ++ value :: after) out)
      (packFields attached base fields (before ++ part :: after) out) := by
  induction before generalizing fields out with
  | nil =>
    obtain ⟨rest, rfl⟩ := List.head?_eq_some_iff.1 (List.head?_eq_getElem? ▸ hfield)
    exact (spoils_packField hnull hstore htype base value out).bind
  | cons first others ih =>
    cases fields with
    | nil => exact absurd hfield (by simp)
    | cons found rest =>
      exact spoils_bind (accounts_packField attached base found first out) fun out ↦ ih hfield out

theorem spoils_packFrom (hnull : part ≠ .null) (hstore : type.store part = .error cause)
    {layout : RecordLayout} {k : Nat} (hfield : layout.fields[k]? = some field)
    (htype : field.type = .number type) {record other : Value}
    (hreplaced : Replaced part [k] record other) (before after : List Value) (number : Nat)
    (out : Bytes) :
    Spoils (type.Refuses part) (layout.packFrom attached number (before ++ record :: after) out)
      (layout.packFrom attached number (before ++ other :: after) out) := by
  induction before generalizing number out with
  | nil =>
    obtain ⟨first, value, found, last, rfl, hrecord, hother, hpart⟩ := hreplaced.elements
    cases hpart
    simp only [List.nil_append, packFrom, hrecord, hother, List.length_append, List.length_cons]
    split
    · exact spoils_refuse _ _
    · exact (spoils_packFields hnull hstore hfield htype _ value last out).bind
  | cons first rest ih =>
    rw [List.cons_append, List.cons_append, packFrom, packFrom]
    split
    · exact spoils_refuse _ _
    · split
      · exact spoils_refuse _ _
      · exact spoils_bind (accounts_packFields attached _ _ _ out) fun out ↦ ih (number + 1) out

end RecordLayout

/-! ### Sequences and arrays -/

/-- The path leads to a number of the type in the items of a sequence of elements. -/
inductive ElementType.NumberAt (type : NumberType) : ElementType → (path : List Nat) → Prop
  | number (i : Nat) : NumberAt type (.number type) [i]
  | vlen {element : ElementType} {path : List Nat} (i : Nat) (h : NumberAt type element path) :
      NumberAt type (.vlen element) (i :: path)
  | compound {members : Members} {size : Int} {path : List Nat}
      (h : (RecordLayout.ofMembers members size).NumberAt type path) :
      NumberAt type (.compound members size) path

namespace Sequence

/-- Items that can be stored, and the same items but for one that cannot. -/
theorem encodeNumbers_of_refused (hnull : part ≠ .null) (hstore : type.store part = .error cause)
    {name : String} {before after : List Value} {value : Value} {bytes : Bytes}
    (h : encodeNumbers name type (before ++ value :: after) = .ok bytes) :
    ∃ fault, encodeNumbers name type (before ++ part :: after) = .error fault ∧
      type.Refuses part fault := by
  have hpresent : type.present part = part := by
    cases part with
    | null => exact absurd rfl hnull
    | _ => rfl
  have hstored : type.storeAll ((before ++ value :: after).map type.present) = .ok bytes := by
    unfold encodeNumbers at h
    split at h
    · exact absurd h (by simp)
    · exact h
  rw [List.map_append] at hstored
  obtain ⟨first, hfirst⟩ := NumberType.storeAll_append_eq_ok hstored
  have hrefused := NumberType.storeAll_of_refused hfirst hstore (after.map type.present)
  rw [encodeNumbers, List.map_append, List.map_cons, hpresent, hrefused]
  rcases NumberType.store_eq_error hstore with ⟨hexceeds, rfl⟩ | ⟨hfits, rfl⟩
  · exact ⟨_, rfl, .inl ⟨hexceeds, rfl⟩⟩
  · exact ⟨_, rfl, .inr ⟨hfits, _, rfl⟩⟩

theorem spoils_placeSequence {items : Value → Action Ledger Bytes} {holds : Fault → Prop}
    {value other : Value} (hvalue : value.isTruthy = true) (hother : other.isTruthy = true)
    (h : Spoils holds (items value) (items other)) :
    Spoils holds (placeSequence items value) (placeSequence items other) := by
  rw [placeSequence, placeSequence, hvalue, hother, Bool.not_true, if_neg Bool.false_ne_true,
    if_neg Bool.false_ne_true]
  exact h.bind

/-- Assumes: elements, and the same elements with another value in the place of a number, which
cannot be stored as this number. Wherever the first can be encoded, the others are refused. -/
theorem spoils_encode (hnull : part ≠ .null) (hstore : type.store part = .error cause)
    {base : ElementType} {path : List Nat} (hplace : base.NumberAt type path) {value other : Value}
    (hreplaced : Replaced part path value other) :
    Spoils (type.Refuses part) (encode base value) (encode base other) := by
  induction hplace generalizing value other with
  | number i =>
    obtain ⟨before, item, found, after, _, hvalue, hother, hpart⟩ := hreplaced.elements
    cases hpart
    simp only [encode, hvalue, hother]
    exact spoils_ofExcept fun _ hencoded ↦ encodeNumbers_of_refused hnull hstore hencoded
  | @vlen element path i hinner ih =>
    obtain ⟨before, item, found, after, _, hvalue, hother, hitem⟩ := hreplaced.elements
    obtain ⟨j, rest, rfl⟩ : ∃ j rest, path = j :: rest := by
      cases hinner with
      | number j => exact ⟨j, [], rfl⟩
      | vlen j _ => exact ⟨j, _, rfl⟩
      | compound h =>
        obtain ⟨record, k, _, rfl, _⟩ := h
        exact ⟨record, [k], rfl⟩
    obtain ⟨hpresent, hpresent'⟩ := hitem.isTruthy
    simp only [encode, hvalue, hother]
    exact (spoils_collect (accounts_placeSequence (accounts_encode element))
      (spoils_placeSequence hpresent hpresent' (ih hitem)) before after).bind
  | compound h =>
    obtain ⟨_, k, field, rfl, hfield, htype⟩ := h
    obtain ⟨before, record, found, after, _, hvalue, hother, hinner⟩ := hreplaced.elements
    simp only [encode, hvalue, hother]
    exact RecordLayout.spoils_packNoting hvalue hother (by simp) fun out ↦
      RecordLayout.spoils_packFrom hnull hstore hfield htype hinner before after 0 out

theorem spoils_packArraysFrom (hnull : part ≠ .null) (hstore : type.store part = .error cause)
    {base : ElementType} {i : Nat} {path : List Nat} (hplace : base.NumberAt type (i :: path))
    {value other : Value} (hreplaced : Replaced part (i :: path) value other) (length size : Int)
    (before after : List Value) (number : Nat) (out : Bytes) :
    Spoils (type.Refuses part)
      (packArraysFrom base length size number (before ++ value :: after) out)
      (packArraysFrom base length size number (before ++ other :: after) out) := by
  induction before generalizing number out with
  | nil =>
    obtain ⟨first, item, found, last, _, hvalue, hother, _⟩ := hreplaced.elements
    have hne : value ≠ .null := fun h ↦ absurd hvalue (by simp [h, Value.elements?])
    have hne' : other ≠ .null := fun h ↦ absurd hother (by simp [h, Value.elements?])
    rw [List.nil_append, List.nil_append, packArraysFrom, packArraysFrom]
    · simp only [hvalue, hother, List.length_append, List.length_cons]
      split
      · exact spoils_refuse _ _
      · exact (spoils_encode hnull hstore hplace hreplaced).bind
    · exact hne'
    · exact hne
  | cons first rest ih =>
    rw [List.cons_append, List.cons_append]
    by_cases hfirst : first = .null
    · subst hfirst
      rw [packArraysFrom, packArraysFrom]
      exact ih (number + 1) out
    · rw [packArraysFrom, packArraysFrom]
      · split
        · exact spoils_refuse _ _
        · split
          · exact spoils_refuse _ _
          · exact spoils_bind (accounts_encode base first) fun bytes ↦ ih (number + 1) _
      · exact hfirst
      · exact hfirst

end Sequence

/-! ### Packers -/

namespace Store

namespace Packer

/-- The path leads to a number of the type in what a packer packs. -/
def NumberAt (type : NumberType) (registry : Registry) : Packer → (path : List Nat) → Prop
  | sequences typeId, path => ∃ base, registry.catalogue.sequenceElement typeId = .ok base ∧
      (ElementType.vlen base).NumberAt type path
  | arrays typeId, path => ∃ base length number i rest,
      registry.catalogue.arrayElement typeId = .ok (base, length) ∧
        path = number :: i :: rest ∧ base.NumberAt type (i :: rest)
  | strings, _ => False
  | records layout _, path => layout.NumberAt type path

variable {registry : Registry} {packer : Packer} {path : List Nat} {values spoiled : Value}

/-- Both packings are checked alike, and the work of the second is refused. -/
theorem work_of_replaced (hnull : part ≠ .null) (hstore : type.store part = .error cause)
    (hplace : packer.NumberAt type registry path) (hreplaced : Replaced part path values spoiled)
    {work : Action Ledger Bytes} (hwork : packer.work registry values = .ok work) :
    ∃ other, packer.work registry spoiled = .ok other ∧
      Spoils (type.Refuses part) work other := by
  cases packer with
  | sequences typeId =>
    obtain ⟨base, hbase, hnumber⟩ := hplace
    rw [Packer.work, hbase, Outcome.ok_bind] at hwork ⊢
    obtain rfl := Except.ok.inj hwork
    exact ⟨_, rfl, Sequence.spoils_encode hnull hstore hnumber hreplaced⟩
  | arrays typeId =>
    obtain ⟨base, length, number, i, rest, hbase, rfl, hnumber⟩ := hplace
    obtain ⟨before, value, other, after, _, hvalues, hspoiled, hinner⟩ := hreplaced.elements
    exact exists_work_arrays hbase hvalues hspoiled (by simp)
      (Sequence.spoils_packArraysFrom hnull hstore hnumber hinner length _ before after 0) hwork
  | strings => exact absurd hplace id
  | records layout attached =>
    obtain ⟨_, k, field, rfl, hfield, htype⟩ := hplace
    obtain ⟨before, record, other, after, _, hrecords, hspoiled, hinner⟩ := hreplaced.elements
    have hsize : (before ++ other :: after).length = (before ++ record :: after).length := by simp
    rw [Packer.work] at hwork ⊢
    obtain ⟨⟨⟩, hcheck, hwork⟩ := Outcome.bind_eq_ok.1 hwork
    simp only [hrecords] at hwork
    simp only [hcheck, Outcome.ok_bind, hspoiled, hsize]
    obtain ⟨out, hzeroed, hwork⟩ := Outcome.bind_eq_ok.1 hwork
    obtain rfl := Except.ok.inj hwork
    rw [hzeroed, Outcome.ok_bind]
    exact ⟨_, rfl,
      RecordLayout.spoils_packFrom hnull hstore hfield htype hinner before after 0 out⟩

end Packer

/-- Assumes: a value, other than a missing one, that a number type cannot store. Where it takes the
place of a number of this type, in a list or tuple of an array that has a flat form, or in what is
packed as sequences, arrays or records, the array has no flat form and the packing is refused. In an
array the element that the shape is read from can only be replaced by one that stands for the same
type. The refusal is a conversion fault, unless the type is the 32-bit floating point type and the
value a finite floating point number beyond its range: then it is an overflow. -/
theorem refused_of_unstorable (hnull : part ≠ .null)
    (hstore : ∀ bytes, type.store part ≠ .ok bytes) :
    (∀ {array spoiled : Value} {wanted : Option NumberType} {shape : Shape} {flat : Flat}
      {path : List Nat} {i : Nat}, Shape.describe array wanted = .ok shape → shape.type = type →
      flatten array wanted = .ok flat → Replaced part (path ++ [i]) array spoiled →
      (path ++ [i]).length = shape.rank →
      (∀ row, array.at? path = some row → row.isSequence = true) →
      ((∃ index ∈ path ++ [i], index ≠ 0) ∨ Shape.typeOfLeaf wanted part = .ok type) →
      ∃ fault, flatten spoiled wanted = .error fault ∧ type.Refuses part fault) ∧
    ∀ {capacity : Nat} {store packed : Store} {packer : Packer} {values spoiled : Value}
      {path : List Nat} {out : Bytes}, Reachable capacity store →
      packer.NumberAt type store.registry path →
      (packer.pack values).run store = (.ok out, packed) → Replaced part path values spoiled →
      ∃ fault after, (packer.pack spoiled).run store = (.error fault, after) ∧
        type.Refuses part fault := by
  obtain ⟨cause, hcause⟩ : ∃ cause, type.store part = .error cause := by
    rcases hstored : type.store part with cause | bytes
    · exact ⟨cause, rfl⟩
    · exact absurd hstored (hstore bytes)
  constructor
  · rintro array spoiled wanted shape flat path i hshape rfl hflatten hreplaced hrank hrow hleaf
    have hregular := (Shape.fits_of_describe hshape).toRegular
    rw [hregular.rank_eq, List.length_append, List.length_singleton] at hrank
    exact Shape.flatten_of_replaced hflatten hshape hreplaced (Nat.succ.inj hrank) hrow hleaf
      fun ⟨bytes, hstored⟩ ↦ hstore bytes hstored
  · intro capacity store packed packer values spoiled path out hreachable hplace hrun hreplaced
    exact Packer.pack_of_spoils hreachable.sound.heap
      (fun _ ↦ Packer.work_of_replaced hnull hcause hplace hreplaced) hrun

/-- Rows of which the second one is a tuple that begins with the given value. -/
def rowsWith (leaf : Value) : Value := .list [.list [.int 1, .int 2], .tuple [leaf, .int 4]]

/-- Two sequences of records; the last record has the given value in the place of a number. -/
def recordsWith (id : Value) : Value :=
  .list [.list [.tuple [.int 1, .text "one"]],
    .list [.tuple [.int 2, .text "two"], .tuple [id, .text "3"]]]

/-- A text in the place of a number is a conversion fault, in an array and in a record inside a
sequence. -/
theorem refused_of_unstorable_text :
    (∃ cause, flatten (rowsWith (.text "three")) (some .int32) = .error (.conversion cause)) ∧
    ∃ cause after, ((Packer.sequences 4).pack (recordsWith (.text "three"))).run Packer.listing =
      (.error (.conversion cause), after) := by
  have hnever : ∀ bytes, NumberType.int32.store (.text "three") ≠ .ok bytes :=
    fun _ h ↦ absurd h (by simp [NumberType.store, NumberType.integerOf?])
  obtain ⟨hflatten, hpack⟩ := refused_of_unstorable (by simp) hnever
  have hconverted {fault : Fault} (h : NumberType.int32.Refuses (.text "three") fault) :
      ∃ cause, fault = .conversion cause := by
    rcases h with ⟨hoverflows, _⟩ | ⟨_, hconversion⟩
    · exact absurd hoverflows.1 (by decide)
    · exact hconversion
  constructor
  · have hshape : Shape.describe (rowsWith (.int 3)) (some .int32) = .ok ⟨[2, 2], .int32, false⟩ :=
      rfl
    obtain ⟨flat, hflat⟩ : ∃ flat, flatten (rowsWith (.int 3)) (some .int32) = .ok flat := ⟨_, rfl⟩
    have hreplaced : Replaced (.text "three") ([1] ++ [0]) (rowsWith (.int 3))
        (rowsWith (.text "three")) :=
      .list [.list [.int 1, .int 2]] [] (.tuple [] [.int 4] (.here (.int 3)))
    obtain ⟨fault, hrefused, hrefuses⟩ := hflatten hshape rfl hflat hreplaced rfl
      (fun row hrow ↦ by obtain rfl := Option.some.inj hrow; rfl) (.inl ⟨1, by simp⟩)
    obtain ⟨cause, rfl⟩ := hconverted hrefuses
    exact ⟨cause, hrefused⟩
  · have hreachable : Reachable 0 Packer.listing :=
      .next (.next (.next .refl trivial) trivial) trivial
    have hplace : (Packer.sequences 4).NumberAt .int32 Packer.listing.registry [1, 1, 0] :=
      ⟨.compound (.cons "id" 0 (.number .int32) (.cons "name" 8 .string .nil)) 16,
        by decide +kernel, .vlen 1 (.compound ⟨1, 0, ⟨"id", 0, .number .int32⟩, rfl, rfl, rfl⟩)⟩
    have hreplaced : Replaced (.text "three") [1, 1, 0] (recordsWith (.int 3))
        (recordsWith (.text "three")) :=
      .list [.list [.tuple [.int 1, .text "one"]]] []
        (.list [.tuple [.int 2, .text "two"]] [] (.tuple [] [.text "3"] (.here (.int 3))))
    have hpacked : (((Packer.sequences 4).pack (recordsWith (.int 3))).run
        Packer.listing).1.toOption.isSome = true := by
      decide +kernel
    obtain ⟨out, hout⟩ := Option.isSome_iff_exists.1 hpacked
    obtain ⟨fault, after, hrefused, hrefuses⟩ :=
      hpack hreachable hplace (Prod.ext (Outcome.toOption_eq_some.1 hout) rfl) hreplaced
    obtain ⟨cause, rfl⟩ := hconverted hrefuses
    exact ⟨cause, after, hrefused⟩

/-- A library with sequences and pairs of 32-bit floating point numbers. -/
def measuring : Store :=
  (Call.register (.array (.number .float32) 2)).next <|
    (Call.register (.vlen (.number .float32))).next (empty 0)

/-- One and a half, and two to the power of 128. -/
def tooWide : Value := .list [.float 0x3ff8000000000000, .float 0x47f0000000000000]

/-- A number beyond the 32-bit range is an overflow in an array, in a record, in a sequence and in a
packed array. -/
theorem overflow_of_tooWide :
    flatten tooWide (some .float32) = .error .overflow ∧
    (((Packer.records ⟨[⟨"x", 0, .number .float32⟩, ⟨"y", 4, .number .float32⟩], 8⟩ false).pack
      (.list [tooWide])).run measuring).1 = .error .overflow ∧
    (((Packer.sequences 2).pack (.list [tooWide])).run measuring).1 = .error .overflow ∧
    (((Packer.arrays 3).pack (.list [tooWide])).run measuring).1 = .error .overflow := by
  refine ⟨?_, ?_, ?_, ?_⟩ <;> decide +kernel

end Store

end Stowage
