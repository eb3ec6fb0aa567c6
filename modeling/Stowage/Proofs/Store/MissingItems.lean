import Stowage.Proofs.Packing.Lowering
import Stowage.Proofs.Store.RoundTrip
import Stowage.Proofs.Store.Spoiling

/-!
# Missing items of arrays

A missing item of an array is stored as the zero value of its type: where arrays can be packed, they
can be packed with any of their items missing, and what is read back is the same but for zero values
in the place of these items. This holds of the types that take missing items
(`ElementType.TakesMissing`). A missing reference or record refuses the whole packing, and what was
allocated for it is freed again.
-/

set_option autoImplicit false

namespace Stowage

open Ledger (Lowers Spoils spoils_ofExcept spoils_refuse spoils_bind)

/-! ### Items in the place of others -/

namespace Value

/-- Items with another one in the place of those whose numbers are told. -/
def fillItems (part : Value) (told : Nat → Bool) (items : List Value) : List Value :=
  items.mapIdx fun i item ↦ if told i then part else item

/-- An array with another item in the place of those whose numbers are told: a tuple again when it
is one, and else a list. A missing array stays missing. -/
def fill (part : Value) (told : Nat → Bool) : Value → Value
  | .null => .null
  | .tuple items => .tuple (fillItems part told items)
  | value => .list (fillItems part told value.items)

/-- Arrays with another item in the place of those whose numbers are told for the array. -/
def fillEach (part : Value) (told : Nat → Nat → Bool) (arrays : List Value) : List Value :=
  arrays.mapIdx fun number array ↦ fill part (told number) array

variable {part : Value} {told : Nat → Bool} {items : List Value}

theorem length_fillItems : (fillItems part told items).length = items.length := List.length_mapIdx

theorem map_fillItems (f : Value → Value) :
    (fillItems part told items).map f = fillItems (f part) told (items.map f) := by
  refine List.ext_getElem ?_ fun i _ _ ↦ ?_
  · rw [List.length_map, length_fillItems, length_fillItems, List.length_map]
  · simp only [fillItems, List.getElem_map, List.getElem_mapIdx]
    split <;> rfl

theorem fillItems_replicate (count : Nat) :
    fillItems part told (List.replicate count part) = List.replicate count part := by
  refine List.eq_replicate_iff.2 ⟨?_, fun item hitem ↦ ?_⟩
  · rw [length_fillItems, List.length_replicate]
  · obtain ⟨i, hi, rfl⟩ := List.mem_iff_getElem.1 hitem
    simp only [fillItems, List.getElem_mapIdx, List.getElem_replicate]
    split <;> rfl

theorem elements?_fill {value : Value} (h : value.elements? = some items) :
    (fill part told value).elements? = some (fillItems part told items) := by
  cases value with
  | null => exact absurd h (by simp [elements?])
  | tuple values =>
    obtain rfl := Option.some.inj h
    rfl
  | _ =>
    rw [← items_of_elements? h]
    rfl

theorem blanks_fillItems : Blanks items (fillItems .null told items) := by
  refine List.forall₂_iff_get.2 ⟨length_fillItems.symm, fun i _ _ ↦ ?_⟩
  simp only [List.get_eq_getElem, fillItems, List.getElem_mapIdx]
  split
  · exact .inr rfl
  · exact .inl rfl

theorem null_mem_fillItems {i : Nat} (hi : i < items.length) (htold : told i = true) :
    .null ∈ fillItems .null told items := by
  refine List.mem_iff_getElem.2 ⟨i, length_fillItems.symm ▸ hi, ?_⟩
  simp only [fillItems, List.getElem_mapIdx, htold, if_pos]

/-- Something becomes of arrays, and the same becomes of them with items filled in when this is said
of each of them. -/
theorem map_fillEach {other : Value} {told : Nat → Nat → Bool} {f : Value → Value}
    {arrays : List Value}
    (h : ∀ array ∈ arrays, ∀ told, f (fill part told array) = fill other told (f array)) :
    (fillEach part told arrays).map f = fillEach other told (arrays.map f) := by
  refine List.ext_getElem ?_ fun i hi _ ↦ ?_
  · simp only [fillEach, List.length_map, List.length_mapIdx]
  · simp only [fillEach, List.getElem_map, List.getElem_mapIdx]
    exact h _ (List.getElem_mem _) _

end Value

open Value (fill fillItems fillEach)

namespace ElementType

variable {base : ElementType} {length : Int}

/-- A missing item that can be stored becomes the zero value. -/
theorem TakesMissing.normalised_null (h : base.TakesMissing) (hpackable : base.IsPackable) :
    base.normalised .null = base.zeroValue := by
  cases base with
  | reference => exact absurd h id
  | compound => exact absurd h id
  | array => exact absurd hpackable id
  | fixedString width =>
    rw [normalised, RecordLayout.textBytes?, Option.getD_some, List.take_nil]
    rfl
  | _ => rfl

/-- What becomes of an array with missing items is what becomes of the array, with zero values in
their place. -/
theorem TakesMissing.placed_fill (h : base.TakesMissing) (hpackable : base.IsPackable)
    (told : Nat → Bool) (value : Value) :
    (array base length).placed (fill .null told value) =
      fill base.zeroValue told ((array base length).placed value) := by
  have hitems (items : List Value) : (fillItems .null told items).map base.normalised =
      fillItems base.zeroValue told (items.map base.normalised) := by
    rw [Value.map_fillItems, h.normalised_null hpackable]
  cases value with
  | null => exact congrArg Value.list (Value.fillItems_replicate _).symm
  | _ => exact congrArg Value.list (hitems _)

/-- The items of a sequence are given back each by itself, and so is a zero value among them. -/
theorem TakesMissing.givenBack_fillItems (h : base.TakesMissing) (told : Nat → Bool)
    (items : List Value) :
    base.givenBack (fillItems base.zeroValue told items) =
      fillItems base.zeroValue told (base.givenBack items) := by
  cases base with
  | reference => exact absurd h id
  | vlen element =>
    rw [givenBack, givenBack, Value.map_fillItems]
    dsimp only [zeroValue]
    rw [givenBack_nil]
  | _ => rfl

theorem TakesMissing.givenBack_fillEach (h : base.TakesMissing) (told : Nat → Nat → Bool)
    {lists : List Value} (hlists : ∀ list ∈ lists, ∃ items, list = .list items) :
    (vlen base).givenBack (fillEach base.zeroValue told lists) =
      fillEach base.zeroValue told ((vlen base).givenBack lists) := by
  rw [givenBack, givenBack]
  refine Value.map_fillEach fun list hlist told ↦ ?_
  obtain ⟨items, rfl⟩ := hlists list hlist
  exact congrArg Value.list (h.givenBack_fillItems told items)

end ElementType

/-! ### Missing references and records -/

/-- Why a missing item is refused. -/
def ElementType.missingFault : ElementType → Fault
  | .reference width => .conversion (.references width)
  | _ => .operand

/-- The items up to the first missing one are the same. -/
theorem Blanks.split {items blanked : List Value} (h : Blanks items blanked)
    (hmissing : .null ∈ blanked) :
    ∃ before item after after', items = before ++ item :: after ∧
      blanked = before ++ .null :: after' ∧ after'.length = after.length := by
  induction h with
  | nil => exact absurd hmissing List.not_mem_nil
  | @cons item kept rest others hkept hrest ih =>
    by_cases hnull : kept = .null
    · exact ⟨[], item, rest, others, rfl, hnull ▸ rfl, hrest.length_eq.symm⟩
    · obtain rfl := hkept.resolve_right hnull
      have hothers := (List.mem_cons.1 hmissing).resolve_left fun heq ↦ hnull heq.symm
      obtain ⟨before, item, after, after', rfl, rfl, hlength⟩ := ih hothers
      exact ⟨kept :: before, item, after, after', rfl, rfl, hlength⟩

theorem Blanks.eq_of_not_mem {items blanked : List Value} (h : Blanks items blanked)
    (hmissing : .null ∉ blanked) : blanked = items := by
  induction h with
  | nil => rfl
  | cons hkept _ ih =>
    obtain ⟨hhead, hrest⟩ := not_or.1 (mt List.mem_cons.2 hmissing)
    rw [hkept.resolve_right fun heq ↦ hhead heq.symm, ih hrest]

namespace RecordLayout

variable {attached : Bool}

/-- Records are packed up to a missing one, which has no fields. -/
theorem spoils_packFrom_null (layout : RecordLayout) (before : List Value) (record : Value)
    (after after' : List Value) (number : Nat) (out : Bytes) :
    Spoils (· = .operand) (layout.packFrom attached number (before ++ record :: after) out)
      (layout.packFrom attached number (before ++ .null :: after') out) := by
  induction before generalizing number out with
  | nil =>
    intro ledger _ _ _ _
    exact ⟨.operand, ledger, rfl, rfl⟩
  | cons first rest ih =>
    rw [List.cons_append, List.cons_append, packFrom, packFrom]
    split
    · exact spoils_refuse _ _
    · split
      · exact spoils_refuse _ _
      · exact spoils_bind (accounts_packFields attached _ _ _ out) fun out ↦ ih (number + 1) out

end RecordLayout

namespace Sequence

variable {base : ElementType} {items blanked : List Value}

/-- Only the elements of a value are laid out. -/
theorem encode_congr {value other : Value} (h : value.elements? = other.elements?) :
    encode base value = encode base other := by
  rcases helements : other.elements? with _ | elements
  · rw [encode.eq_def, encode.eq_def base other]
    simp only [h, helements]
  · rw [encode.eq_def, encode.eq_def base other]
    simp only [h, helements]
    cases base with
    | compound members size =>
      dsimp only
      rw [RecordLayout.packNoting, RecordLayout.packNoting, RecordLayout.pack, RecordLayout.pack, h]
    | _ => rfl

/-- Assumes: elements of a type that does not take missing items. With one of them missing they
cannot be laid out. -/
theorem spoils_encode_null (hbase : ¬ base.TakesMissing) {value other : Value}
    (hvalue : value.elements? = some items) (hother : other.elements? = some blanked)
    (h : Blanks items blanked) (hmissing : .null ∈ blanked) :
    Spoils (· = base.missingFault) (encode base value) (encode base other) := by
  rw [encode.eq_def, encode.eq_def base other]
  simp only [hvalue, hother]
  cases base with
  | reference width =>
    refine spoils_ofExcept fun _ _ ↦ ⟨_, ?_, rfl⟩
    have hnone : blanked.mapM (referenceBytes? width) = none := by
      rcases hmapped : blanked.mapM (referenceBytes? width) with _ | parts
      · rfl
      · obtain ⟨part, _, hpart⟩ :=
          Outcome.exists_mem_of_forall₂ (Outcome.mapM_eq_some_iff.1 hmapped).flip hmissing
        exact absurd hpart (by simp [referenceBytes?, Value.data?])
    rw [encodeReferences, hnone]
    rfl
  | compound members size =>
    obtain ⟨before, item, after, after', rfl, rfl, hlength⟩ := h.split hmissing
    exact RecordLayout.spoils_packNoting hvalue hother (by simp [hlength])
      (RecordLayout.spoils_packFrom_null _ before item after after' 0)
  | _ => exact absurd trivial hbase

theorem spoils_packArraysFrom_null (hbase : ¬ base.TakesMissing) (length size : Int)
    {arrays others : List Value} (h : BlanksEach arrays others)
    (hmissing : ∃ other ∈ others, .null ∈ other.items) (number : Nat) (out : Bytes) :
    Spoils (· = base.missingFault) (packArraysFrom base length size number arrays out)
      (packArraysFrom base length size number others out) := by
  induction h generalizing number out with
  | nil =>
    obtain ⟨_, hother, _⟩ := hmissing
    exact absurd hother List.not_mem_nil
  | @cons array other rest others hhead _ ih =>
    have hrest (hhere : .null ∉ other.items) : ∃ found ∈ others, .null ∈ found.items := by
      obtain ⟨found, hfound, hnull⟩ := hmissing
      rcases List.mem_cons.1 hfound with rfl | hfound
      · exact absurd hnull hhere
      · exact ⟨found, hfound, hnull⟩
    rcases hhead with ⟨rfl, rfl⟩ | ⟨hnull, hitems⟩
    · rw [packArraysFrom, packArraysFrom]
      exact ih (hrest List.not_mem_nil) (number + 1) out
    · rcases harray : array.elements? with _ | items
      · rw [packArraysFrom_cons_eq_refuse hnull harray]
        exact spoils_refuse _ _
      · obtain ⟨blanked, hblanked, hblanks⟩ := hitems items harray
        rw [packArraysFrom_cons harray, packArraysFrom_cons hblanked, hblanks.length_eq]
        split
        · exact spoils_refuse _ _
        · by_cases hhere : .null ∈ blanked
          · exact (spoils_encode_null hbase harray hblanked hblanks hhere).bind
          · obtain rfl := hblanks.eq_of_not_mem hhere
            rw [encode_congr (hblanked.trans harray.symm)]
            exact spoils_bind (accounts_encode base array) fun bytes ↦
              ih (hrest (Value.items_of_elements? hblanked ▸ hhere)) (number + 1) _

end Sequence

/-- Arrays with items that are missing. -/
theorem Value.blanksEach_fillEach (missing : Nat → Nat → Bool) (arrays : List Value) :
    Sequence.BlanksEach arrays (fillEach .null missing arrays) := by
  refine List.forall₂_iff_get.2 ⟨List.length_mapIdx.symm, fun i _ _ ↦ ?_⟩
  simp only [List.get_eq_getElem, fillEach, List.getElem_mapIdx]
  by_cases hnull : arrays[i] = .null
  · rw [hnull]
    exact .inl ⟨rfl, rfl⟩
  · exact .inr ⟨hnull, fun items hitems ↦ ⟨_, elements?_fill hitems, blanks_fillItems⟩⟩

/-! ### Packing and reading back -/

namespace Store

variable {store packed : Store} {typeId : Int} {base : ElementType} {length : Int} {values : Value}
  {buffer : Bytes} {count : Nat} {lists : List Value}

/-- The elements in a buffer stand for the values, by what they lead to in the heap. -/
def StandsFor (store : Store) (type : ElementType) (count : Nat) (buffer : Bytes)
    (values : List Value) : Prop :=
  buffer.length = count * type.width ∧ ∃ contents,
    Contents.ofItems? (type.contents? store.heap) type.width count buffer = some contents ∧
      contents.views.map type.viewed = values

/-- The arrays in a buffer are captured, and interpreted as the values. -/
def GivesBack (store : Store) (typeId : Int) (count : Nat) (buffer : Bytes)
    (values : List Value) : Prop :=
  ∃ batch, Batch.captureArrays store.heap store.catalogue buffer count typeId = .ok batch ∧
    batch.interpret = .ok values

/-- Packed arrays stand for what becomes of the values. -/
theorem standsFor_of_packArrays (hsound : store.heap.Sound)
    (hwellFormed : (ElementType.array base length).WellFormed)
    (htype : store.registry.typeOf typeId = .ok (.array base length))
    (hrun : (packArrays values typeId).run store = (.ok buffer, packed)) :
    packed.StandsFor (.array base length) values.items.length buffer
      (values.items.map (ElementType.array base length).placed) := by
  obtain ⟨addresses, heap, rfl, hpacked⟩ := packArrays_eq_ok hrun
  have hemits := Sequence.emitsBuffer_packArrays hwellFormed
    (fun _ ↦ Registry.eq_of_arrayElement htype hwellFormed) values
  obtain ⟨hlength, hemitted⟩ := hemits _ _ _ _ hsound hpacked
  obtain ⟨contents, hcontents, _, hplaces⟩ := hemitted.contents
  exact ⟨hlength, contents, hcontents, hplaces⟩

/-- What arrays stand for is what they are given back as, if it fits in blocks and tables. -/
theorem StandsFor.givesBack (h : store.StandsFor (.array base length) count buffer lists)
    (hwellFormed : (ElementType.array base length).WellFormed) (hpackable : base.IsPackable)
    (hfits : store.heap.BlocksFit) (htable : base.FitsTable length.toNat)
    (hbase : store.catalogue.arrayElement typeId = .ok (base, length)) :
    store.GivesBack typeId count buffer ((ElementType.vlen base).givenBack lists) := by
  obtain ⟨hlength, contents, hcontents, rfl⟩ := h
  exact Batch.captureArrays_of_contents hwellFormed hpackable hfits htable hbase hlength hcontents

/-- What becomes of arrays with missing items. -/
theorem map_placed_fillEach (hbase : base.TakesMissing) (hpackable : base.IsPackable)
    (missing : Nat → Nat → Bool) (arrays : List Value) :
    (fillEach .null missing arrays).map (ElementType.array base length).placed =
      fillEach base.zeroValue missing (arrays.map (ElementType.array base length).placed) :=
  Value.map_fillEach fun array _ told ↦ hbase.placed_fill hpackable told array

theorem exists_list_of_placed {list : Value}
    (h : list ∈ values.items.map (ElementType.array base length).placed) :
    ∃ items, list = .list items := by
  obtain ⟨array, _, rfl⟩ := List.mem_map.1 h
  cases array <;> exact ⟨_, rfl⟩

/-- What is packed as arrays has elements. -/
theorem elements?_of_packArrays
    (hrun : (packArrays values typeId).run store = (.ok buffer, packed)) :
    values.elements? = some values.items := by
  rcases helements : values.elements? with _ | elements
  · obtain ⟨_, _, _, hpacked⟩ := packArrays_eq_ok hrun
    obtain ⟨_, _, _, hrest⟩ := Action.run_bind_eq_ok.1 hpacked
    simp only [helements] at hrest
    exact absurd (Prod.mk.inj hrest).1 (by simp)
  · rw [Value.items_of_elements? helements]

/-- Assumes: a packing that succeeds in a store with a sound heap, and values that are checked alike
and can be packed wherever the first ones can. They are packed, and their blocks fit when those of
the first ones do. -/
theorem Packer.pack_of_lowers {packer : Packer} {others : Value} {related : Bytes → Bytes → Prop}
    (hsound : store.heap.Sound)
    (h : ∀ work, packer.work store.registry values = .ok work →
      ∃ other, packer.work store.registry others = .ok other ∧ Lowers related work other)
    (hrun : (packer.pack values).run store = (.ok buffer, packed)) :
    ∃ other after, (packer.pack others).run store = (.ok other, after) ∧
      after.catalogue = packed.catalogue ∧ (packed.heap.BlocksFit → after.heap.BlocksFit) := by
  obtain ⟨addresses, hpacking, hpacked⟩ := run_pack_eq_ok hrun
  rw [run_packing] at hpacking
  obtain ⟨work, _, hchecked, hsettled⟩ := Action.run_bind_eq_ok.1 hpacking
  obtain ⟨rfl, hwork⟩ := Action.run_ofExcept_eq_ok.1 hchecked
  obtain ⟨other, hother, hlowers⟩ := h work hwork
  obtain ⟨result, _, heap, hrunOther, hbelow, _⟩ :=
    hlowers.settle (@Ledger.Below.refl ⟨store.heap, []⟩ hsound) hsettled
  refine ⟨result, { store with heap }, ?_, ?_, hbelow.blocksFit⟩
  · rw [run_pack, onHeap, Action.run_within, Action.run_map, run_packing,
      Action.run_ofExcept_bind_ok hother, hrunOther]
    rfl
  · rw [hpacked]
    rfl

/-- A refused packing leaves the live blocks as they were. -/
theorem Packer.liveBlocks_of_refused {packer : Packer} (hsound : store.heap.Sound) {fault : Fault}
    {after : Store} (hrun : (packer.pack values).run store = (.error fault, after)) :
    after.heap.liveBlocks = store.heap.liveBlocks := by
  obtain ⟨hpacking, _⟩ := run_pack_eq_error hrun
  rcases packer.packs_packing store.registry values store.heap hsound with
    ⟨_, _, _, hpacked, _⟩ | ⟨_, _, hstopped, hchanged, _⟩
  · exact absurd (Prod.mk.inj (hpacked.symm.trans hpacking)).1 (by simp)
  · obtain ⟨_, rfl⟩ := Prod.mk.inj (hstopped.symm.trans hpacking)
    exact hchanged.liveBlocks_eq

variable (missing : Nat → Nat → Bool)

/-- Assumes: arrays of a type that takes missing items, which can be packed. They can be packed with
items missing, and stand for the same but for zero values in the place of these items. -/
theorem exists_packArrays_missing (hsound : store.heap.Sound)
    (hwellFormed : (ElementType.array base length).WellFormed) (hpackable : base.IsPackable)
    (htype : store.registry.typeOf typeId = .ok (.array base length))
    (hbase : store.catalogue.arrayElement typeId = .ok (base, length))
    (hrun : (packArrays values typeId).run store = (.ok buffer, packed))
    (htakes : base.TakesMissing) :
    ∃ other after,
      (packArrays (.list (fillEach .null missing values.items)) typeId).run store =
        (.ok other, after) ∧
      after.StandsFor (.array base length) values.items.length other
        (fillEach base.zeroValue missing
          (values.items.map (ElementType.array base length).placed)) ∧
      after.catalogue = packed.catalogue ∧ (packed.heap.BlocksFit → after.heap.BlocksFit) := by
  have hcount : (fillEach .null missing values.items).length = values.items.length :=
    List.length_mapIdx
  have hwork (work : Action Ledger Bytes)
      (hvalues : (Packer.arrays typeId).work store.registry values = .ok work) :=
    Packer.exists_work_arrays hbase (elements?_of_packArrays hrun)
      (show (Value.list (fillEach .null missing values.items)).elements? = some _ from rfl) hcount
      (fun out ↦ Sequence.lowers_packArraysFrom htakes length _
        (Value.blanksEach_fillEach missing values.items) 0 out out) hvalues
  obtain ⟨other, after, hother, hcatalogue, hfits⟩ := Packer.pack_of_lowers hsound hwork hrun
  have hstands := standsFor_of_packArrays hsound hwellFormed htype hother
  change after.StandsFor _ (fillEach .null missing values.items).length _
    ((fillEach .null missing values.items).map _) at hstands
  rw [hcount, map_placed_fillEach htakes hpackable] at hstands
  exact ⟨other, after, hother, hstands, hcatalogue, hfits⟩

/-- Assumes: arrays of a type that takes no missing items, which can be packed. With an item missing
they are refused. -/
theorem exists_refused_missing (hsound : store.heap.Sound)
    (hbase : store.catalogue.arrayElement typeId = .ok (base, length))
    (hrun : (packArrays values typeId).run store = (.ok buffer, packed))
    (htakes : ¬ base.TakesMissing) {number i : Nat} {array : Value}
    (harray : values.items[number]? = some array) (hi : i < array.items.length)
    (htold : missing number i = true) :
    ∃ after, (packArrays (.list (fillEach .null missing values.items)) typeId).run store =
      (.error base.missingFault, after) := by
  have hcount : (fillEach .null missing values.items).length = values.items.length :=
    List.length_mapIdx
  have hnull : ∃ other ∈ fillEach .null missing values.items, .null ∈ other.items := by
    have helement : array.elements? = some array.items := by
      rcases helement : array.elements? with _ | items
      · rw [Value.items, helement] at hi
        exact absurd hi (Nat.not_lt_zero i)
      · rw [Value.items_of_elements? helement]
    refine ⟨fill .null (missing number) array, ?_, ?_⟩
    · obtain ⟨hnumber, rfl⟩ := List.getElem?_eq_some_iff.1 harray
      exact List.mem_iff_getElem.2 ⟨number, hcount ▸ hnumber, List.getElem_mapIdx⟩
    · rw [Value.items_of_elements? (Value.elements?_fill helement)]
      exact Value.null_mem_fillItems hi htold
  have hwork (work : Action Ledger Bytes)
      (hvalues : (Packer.arrays typeId).work store.registry values = .ok work) :=
    Packer.exists_work_arrays hbase (elements?_of_packArrays hrun)
      (show (Value.list (fillEach .null missing values.items)).elements? = some _ from rfl) hcount
      (Sequence.spoils_packArraysFrom_null htakes length _
        (Value.blanksEach_fillEach missing values.items) hnull 0) hvalues
  obtain ⟨_, after, hrefused, rfl⟩ := Packer.pack_of_spoils hsound hwork hrun
  exact ⟨after, hrefused⟩

/-- Assumes: a library after any calls, a well-formed array type whose items can be packed, and a
packing of arrays that succeeds; any items of the arrays may be missing instead. If the type takes
missing items, the packing succeeds as well. What the arrays stand for is the same but for zero
values in the place of the missing items, and so is what is captured and interpreted when it fits in
blocks and tables. If the type takes no missing items and one is missing, the packing is refused and
leaves the live blocks as they were. -/
theorem packArrays_of_missing {capacity : Nat} (hreachable : Reachable capacity store)
    (hwellFormed : (ElementType.array base length).WellFormed) (hpackable : base.IsPackable)
    (htype : store.registry.typeOf typeId = .ok (.array base length))
    (hrun : (packArrays values typeId).run store = (.ok buffer, packed)) :
    (base.TakesMissing → ∃ other after lists,
      (packArrays (.list (fillEach .null missing values.items)) typeId).run store =
        (.ok other, after) ∧
      packed.StandsFor (.array base length) values.items.length buffer lists ∧
      after.StandsFor (.array base length) values.items.length other
        (fillEach base.zeroValue missing lists) ∧
      (packed.heap.BlocksFit → base.FitsTable length.toNat → ∃ back,
        packed.GivesBack typeId values.items.length buffer back ∧
        after.GivesBack typeId values.items.length other
          (fillEach base.zeroValue missing back))) ∧
    (¬ base.TakesMissing →
      (∃ number array i, values.items[number]? = some array ∧ i < array.items.length ∧
        missing number i = true) →
      ∃ after, (packArrays (.list (fillEach .null missing values.items)) typeId).run store =
          (.error base.missingFault, after) ∧
        after.heap.liveBlocks = store.heap.liveBlocks) := by
  have hsound := hreachable.sound.heap
  have hbase := hreachable.closed.arrayElement_eq_ok htype hwellFormed
  constructor
  · intro htakes
    obtain ⟨other, after, hother, hstands', hcatalogue, hfits⟩ :=
      exists_packArrays_missing missing hsound hwellFormed hpackable htype hbase hrun htakes
    have hstands := standsFor_of_packArrays hsound hwellFormed htype hrun
    refine ⟨other, after, _, hother, hstands, hstands', fun hblocks htable ↦ ?_⟩
    have hcaught : packed.catalogue = store.catalogue := by
      obtain ⟨_, _, rfl, _⟩ := packArrays_eq_ok hrun
      rfl
    refine ⟨_, hstands.givesBack hwellFormed hpackable hblocks htable (hcaught ▸ hbase), ?_⟩
    rw [← htakes.givenBack_fillEach missing fun _ hlist ↦ exists_list_of_placed hlist]
    exact hstands'.givesBack hwellFormed hpackable (hfits hblocks) htable
      (hcatalogue ▸ hcaught ▸ hbase)
  · rintro htakes ⟨number, array, i, harray, hi, htold⟩
    obtain ⟨after, hrefused⟩ :=
      exists_refused_missing missing hsound hbase hrun htakes harray hi htold
    exact ⟨after, hrefused, @Packer.liveBlocks_of_refused _ _ (.arrays typeId) hsound _ _ hrefused⟩

/-- A library with pairs of texts and pairs of references. -/
def pairs : Store :=
  (Call.register (.array (.reference 2) 2)).next <|
    (Call.register (.array .string 2)).next (empty 0)

/-- The second item of the first array. -/
def secondOfFirst (number i : Nat) : Bool := number == 0 && i == 1

/-- Without its second text a pair is packed and read back with an empty text; without its second
reference it is refused. -/
theorem packArrays_of_missing_pairs :
    (∃ buffer packed other after back,
      (packArrays (.list [.list [.text "a", .text "b"]]) 2).run pairs = (.ok buffer, packed) ∧
      (packArrays (.list [.list [.text "a", .null]]) 2).run pairs = (.ok other, after) ∧
      packed.GivesBack 2 1 buffer back ∧
      after.GivesBack 2 1 other (fillEach (.text "") secondOfFirst back)) ∧
    ∃ after, (packArrays (.list [.list [.bytes [1, 2], .null]]) 4).run pairs =
        (.error (.conversion (.references 2)), after) ∧
      after.heap.liveBlocks = [] := by
  have hreachable : Reachable 0 pairs := .next (.next .refl trivial) trivial
  constructor
  · have hpacked : ((packArrays (.list [.list [.text "a", .text "b"]]) 2).run pairs).1 =
        .ok [8, 0, 0, 0, 0, 0, 0, 0, 16, 0, 0, 0, 0, 0, 0, 0] := by decide +kernel
    have hwellFormed : (ElementType.array .string 2).WellFormed := ⟨trivial, by decide, rfl⟩
    obtain ⟨other, after, lists, hother, _, _, hback⟩ :=
      (packArrays_of_missing secondOfFirst hreachable hwellFormed trivial rfl
        (Prod.ext hpacked rfl)).1 trivial
    obtain ⟨back, hpackedBack, hafterBack⟩ :=
      hback (by unfold Heap.BlocksFit; decide +kernel) fun _ ↦ by decide
    exact ⟨_, _, other, after, back, Prod.ext hpacked rfl, hother, hpackedBack, hafterBack⟩
  · have hpacked : ((packArrays (.list [.list [.bytes [1, 2], .bytes [3, 4]]]) 4).run pairs).1 =
        .ok [1, 2, 3, 4] := by decide +kernel
    have hwellFormed : (ElementType.array (.reference 2) 2).WellFormed :=
      ⟨(by decide : (0 : Int) < 2), by decide, rfl⟩
    exact (packArrays_of_missing secondOfFirst hreachable hwellFormed trivial rfl
      (Prod.ext hpacked rfl)).2 id ⟨0, _, 1, rfl, by decide, rfl⟩

/-- A pair of references can be packed, and not without the second one. -/
theorem packArrays_missing_reference :
    ((packArrays (.list [.list [.bytes [1, 2], .bytes [3, 4]]]) 4).run pairs).1 =
      .ok [1, 2, 3, 4] ∧
    ((packArrays (.list [.list [.bytes [1, 2], .null]]) 4).run pairs).1 =
      .error (.conversion (.references 2)) := by
  constructor <;> decide +kernel

end Store

end Stowage
