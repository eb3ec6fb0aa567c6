import Stowage.Proofs.ElementType.Laid
import Stowage.Proofs.Heap.Growth

/-!
# What stored elements hold

`ElementType.contents?` follows the addresses stored in an element and gives two things: the deep
view of the element, in which every address is replaced by what it leads to, and the addresses of
all blocks on the way, a block after those it leads to. There are no contents when something on the
way cannot be read.

Contents depend on the heap only through the reads at those addresses, so a change that keeps the
reads keeps the contents (`contents?_of_keepsReads`).
-/

set_option autoImplicit false

namespace Stowage

/-- What an element looks like when its addresses are followed. -/
inductive View where
  /-- Bytes stored inline. -/
  | inline (bytes : Bytes)
  /-- A null address, and the length that is stored with it. -/
  | null (length : Nat)
  /-- A string, up to its first zero byte. -/
  | text (bytes : Bytes)
  /-- The items of a sequence or an array. -/
  | items (views : List View)
  /-- The bytes of a record with zeros in the place of addresses, and its members. -/
  | record (bytes : Bytes) (members : List View)

/-- The deep views of elements one after another, and the addresses of the blocks they lead to. -/
structure Contents where
  /-- What the elements look like. -/
  views : List View
  /-- The blocks, the inner ones first. -/
  blocks : List Nat

namespace Contents

/-- The contents of no elements. -/
def none : Contents := ⟨[], []⟩

/-- The contents of some elements and then others. -/
def append (first second : Contents) : Contents :=
  ⟨first.views ++ second.views, first.blocks ++ second.blocks⟩

/-- The contents of bytes that hold no addresses. -/
def inline (bytes : Bytes) : Contents := ⟨[.inline bytes], []⟩

/-- The contents of `count` elements of one width back to back. -/
def ofItems? (item? : Bytes → Option Contents) (width : Nat) :
    (count : Nat) → Bytes → Option Contents
  | 0, _ => some none
  | count + 1, bytes => do
    let first ← item? (bytes.take width)
    let others ← ofItems? item? width count (bytes.drop width)
    some (first.append others)

/-- The contents of the address of a string. -/
def ofString? (heap : Heap) (bytes : Bytes) : Option Contents :=
  let address := Bytes.toNat bytes
  if address = Heap.nullAddress then some ⟨[.null 0], []⟩
  else do
    let text ← (heap.readString address).toOption
    some ⟨[.text text], [address]⟩

/-- The contents of the length and address of a sequence whose items have a width. -/
def ofSequence? (heap : Heap) (item? : Bytes → Option Contents) (width : Nat) (bytes : Bytes) :
    Option Contents :=
  let length := Bytes.toNat (Bytes.cut bytes 0 8)
  let address := Bytes.toNat (Bytes.cut bytes 8 8)
  if address = Heap.nullAddress then some ⟨[.null length], []⟩
  else do
    let payload ← (heap.read address (length * width : Nat)).toOption
    let items ← ofItems? item? width length payload
    some ⟨[.items items.views], items.blocks ++ [address]⟩

end Contents

/-- Whether a byte of a record belongs to a member that holds addresses. -/
def Members.holdsAddressAt (members : Members) (index : Nat) : Bool :=
  members.toList.any fun m ↦
    m.type.isVariable && decide (m.offset.toNat ≤ index ∧ index < m.offset.toNat + m.type.width)

/-- The bytes of a record with zeros in the place of the members that hold addresses. -/
def Members.blank (members : Members) (bytes : Bytes) : Bytes :=
  bytes.mapIdx fun index b ↦ if members.holdsAddressAt index then 0 else b

mutual

/-- The contents of an element of the given inline bytes. -/
def ElementType.contents? (heap : Heap) : ElementType → Bytes → Option Contents
  | .string, bytes => Contents.ofString? heap bytes
  | .vlen element, bytes => Contents.ofSequence? heap (element.contents? heap) element.width bytes
  | .array element length, bytes => do
    let items ← Contents.ofItems? (element.contents? heap) element.width length.toNat bytes
    some ⟨[.items items.views], items.blocks⟩
  | .compound members _, bytes => do
    let items ← members.contents? heap bytes
    some ⟨[.record (members.blank bytes) items.views], items.blocks⟩
  | _, bytes => some (.inline bytes)

/-- The contents of the members of a record of the given bytes. -/
def Members.contents? (heap : Heap) : Members → Bytes → Option Contents
  | .nil, _ => some .none
  | .cons _ offset type rest, bytes => do
    let first ← type.contents? heap (Bytes.cut bytes offset.toNat type.width)
    let others ← rest.contents? heap bytes
    some (first.append others)

end

namespace Contents

variable {item? item?' : Bytes → Option Contents} {width count : Nat} {bytes : Bytes}
  {contents : Contents}

@[simp] theorem blocks_append (first second : Contents) :
    (first.append second).blocks = first.blocks ++ second.blocks := rfl

@[simp] theorem views_append (first second : Contents) :
    (first.append second).views = first.views ++ second.views := rfl

/-- Items have contents when the first one and the others do. -/
theorem ofItems?_succ_eq_some :
    ofItems? item? width (count + 1) bytes = some contents ↔
      ∃ first others, item? (bytes.take width) = some first ∧
        ofItems? item? width count (bytes.drop width) = some others ∧
        contents = first.append others := by
  simp only [ofItems?, Option.bind_eq_bind, Option.bind_eq_some_iff, Option.some.injEq]
  constructor
  · rintro ⟨first, hfirst, others, hothers, rfl⟩
    exact ⟨first, others, hfirst, hothers, rfl⟩
  · rintro ⟨first, others, hfirst, hothers, rfl⟩
    exact ⟨first, hfirst, others, hothers, rfl⟩

/-- Items do not depend on what lies behind them. -/
theorem ofItems?_take {n : Nat} (h : width * count ≤ n) :
    ofItems? item? width count (bytes.take n) = ofItems? item? width count bytes := by
  induction count generalizing bytes n with
  | zero => rfl
  | succ count ih =>
    rw [Nat.mul_succ] at h
    rw [ofItems?, ofItems?, List.take_take, Nat.min_eq_left (by omega), List.drop_take,
      ih (by omega)]

theorem ofString?_eq_some {heap : Heap} :
    ofString? heap bytes = some contents ↔
      (Bytes.toNat bytes = Heap.nullAddress ∧ contents = ⟨[.null 0], []⟩) ∨
      (Bytes.toNat bytes ≠ Heap.nullAddress ∧ ∃ text,
        heap.readString (Bytes.toNat bytes) = .ok text ∧
          contents = ⟨[.text text], [Bytes.toNat bytes]⟩) := by
  unfold ofString?
  by_cases hnull : Bytes.toNat bytes = Heap.nullAddress
  · simp [hnull, eq_comm]
  · rcases hread : heap.readString (Bytes.toNat bytes) with fault | text
    · simp [hnull, hread, Except.toOption]
    · simp [hnull, hread, Except.toOption, eq_comm]

section Sequence

variable {heap : Heap} {length address : Nat}
  (hlength : Bytes.toNat (Bytes.cut bytes 0 8) = length)
  (haddress : Bytes.toNat (Bytes.cut bytes 8 8) = address)

include hlength haddress

theorem ofSequence?_of_null (hnull : address = Heap.nullAddress) :
    ofSequence? heap item? width bytes = some ⟨[.null length], []⟩ := by
  rw [ofSequence?, haddress, hlength, if_pos hnull]

theorem ofSequence?_of_read (hnull : address ≠ Heap.nullAddress) {payload : Bytes}
    (hread : heap.read address ((length * width : Nat) : Int) = .ok payload) :
    ofSequence? heap item? width bytes = (ofItems? item? width length payload).map fun items ↦
      ⟨[.items items.views], items.blocks ++ [address]⟩ := by
  rw [ofSequence?, haddress, hlength, if_neg hnull, hread]
  change (ofItems? item? width length payload).bind _ = _
  rcases ofItems? item? width length payload with _ | items <;> rfl

theorem ofSequence?_of_unread (hnull : address ≠ Heap.nullAddress) {fault : Fault}
    (hread : heap.read address ((length * width : Nat) : Int) = .error fault) :
    ofSequence? heap item? width bytes = Option.none := by
  rw [ofSequence?, haddress, hlength, if_neg hnull, hread]
  rfl

/-- What a sequence holds: nothing at a null address, and otherwise its items and the block that
they lie in. -/
theorem ofSequence?_eq_some :
    ofSequence? heap item? width bytes = some contents ↔
      (address = Heap.nullAddress ∧ contents = ⟨[.null length], []⟩) ∨
      (address ≠ Heap.nullAddress ∧ ∃ payload items,
        heap.read address ((length * width : Nat) : Int) = .ok payload ∧
        ofItems? item? width length payload = some items ∧
        contents = ⟨[.items items.views], items.blocks ++ [address]⟩) := by
  by_cases hnull : address = Heap.nullAddress
  · rw [ofSequence?_of_null hlength haddress hnull, Option.some.injEq, eq_comm]
    exact ⟨fun h ↦ .inl ⟨hnull, h⟩, fun h ↦ h.elim (·.2) fun h ↦ absurd hnull h.1⟩
  · rcases hread : heap.read address ((length * width : Nat) : Int) with fault | payload
    · rw [ofSequence?_of_unread hlength haddress hnull hread]
      simp [hnull]
    · rw [ofSequence?_of_read hlength haddress hnull hread, Option.map_eq_some_iff]
      constructor
      · rintro ⟨items, hitems, rfl⟩
        exact .inr ⟨hnull, payload, items, rfl, hitems, rfl⟩
      · rintro (⟨h, _⟩ | ⟨_, payload', items, hpayload, hitems, rfl⟩)
        · exact absurd h hnull
        · obtain rfl := Except.ok.inj hpayload
          exact ⟨items, hitems, rfl⟩

end Sequence

end Contents

/-- The members have contents when the first one and the others do. -/
theorem Members.contents?_cons_eq_some {heap : Heap} {name : String} {offset : Int}
    {type : ElementType} {rest : Members} {bytes : Bytes} {contents : Contents} :
    (Members.cons name offset type rest).contents? heap bytes = some contents ↔
      ∃ first others, type.contents? heap (Bytes.cut bytes offset.toNat type.width) = some first ∧
        rest.contents? heap bytes = some others ∧ contents = first.append others := by
  simp only [Members.contents?, Option.bind_eq_bind, Option.bind_eq_some_iff, Option.some.injEq]
  constructor
  · rintro ⟨first, hfirst, others, hothers, rfl⟩
    exact ⟨first, others, hfirst, hothers, rfl⟩
  · rintro ⟨first, others, hfirst, hothers, rfl⟩
    exact ⟨first, hfirst, others, hothers, rfl⟩

namespace ElementType

variable {heap : Heap} {bytes : Bytes} {contents : Contents}

theorem contents?_array_eq_some {element : ElementType} {length : Int} :
    (array element length).contents? heap bytes = some contents ↔
      ∃ items, Contents.ofItems? (element.contents? heap) element.width length.toNat bytes =
        some items ∧ contents = ⟨[.items items.views], items.blocks⟩ := by
  simp [contents?, Option.bind_eq_some_iff, @eq_comm _ contents]

theorem contents?_compound_eq_some {members : Members} {size : Int} :
    (compound members size).contents? heap bytes = some contents ↔
      ∃ items, members.contents? heap bytes = some items ∧
        contents = ⟨[.record (members.blank bytes) items.views], items.blocks⟩ := by
  simp [contents?, Option.bind_eq_some_iff, @eq_comm _ contents]

end ElementType

/-! ### Contents of bytes without addresses -/

/-- Items of bytes with a property that passes to parts of them and leaves no addresses. -/
theorem Contents.ofItems?_of_parts {item? : Heap → Bytes → Option Contents} {p : Bytes → Prop}
    (hparts : ∀ bytes n, p bytes → p (bytes.take n) ∧ p (bytes.drop n))
    (h : ∀ bytes, p bytes → ∃ views, ∀ heap, item? heap bytes = some ⟨views, []⟩)
    (width count : Nat) {bytes : Bytes} (hbytes : p bytes) :
    ∃ views, ∀ heap, Contents.ofItems? (item? heap) width count bytes = some ⟨views, []⟩ := by
  induction count generalizing bytes with
  | zero => exact ⟨[], fun _ ↦ rfl⟩
  | succ count ih =>
    obtain ⟨htake, hdrop⟩ := hparts bytes width hbytes
    obtain ⟨first, hfirst⟩ := h _ htake
    obtain ⟨others, hothers⟩ := ih hdrop
    refine ⟨first ++ others, fun heap ↦ ?_⟩
    exact Contents.ofItems?_succ_eq_some.2 ⟨_, _, hfirst heap, hothers heap, rfl⟩

/-- Items that hold no addresses. -/
theorem Contents.ofItems?_of_inline {item? : Heap → Bytes → Option Contents}
    (h : ∀ bytes, ∃ views, ∀ heap, item? heap bytes = some ⟨views, []⟩) (width count : Nat)
    (bytes : Bytes) :
    ∃ views, ∀ heap, Contents.ofItems? (item? heap) width count bytes = some ⟨views, []⟩ :=
  Contents.ofItems?_of_parts (p := fun _ ↦ True) (fun _ _ h ↦ ⟨h, h⟩) (fun bytes _ ↦ h bytes) width
    count trivial

mutual

/-- An element without addresses looks the same in every heap. -/
theorem ElementType.contents?_of_not_isVariable (type : ElementType)
    (h : type.isVariable = false) (bytes : Bytes) :
    ∃ views, ∀ heap, type.contents? heap bytes = some ⟨views, []⟩ := by
  match type, h with
  | .number _, _ => exact ⟨_, fun _ ↦ rfl⟩
  | .fixedString _, _ => exact ⟨_, fun _ ↦ rfl⟩
  | .reference _, _ => exact ⟨_, fun _ ↦ rfl⟩
  | .enum _ _, _ => exact ⟨_, fun _ ↦ rfl⟩
  | .array element length, h =>
    obtain ⟨views, hviews⟩ := Contents.ofItems?_of_inline
      (fun bytes ↦ ElementType.contents?_of_not_isVariable element h bytes) element.width
      length.toNat bytes
    exact ⟨[.items views], fun heap ↦ ElementType.contents?_array_eq_some.2 ⟨_, hviews heap, rfl⟩⟩
  | .compound members size, h =>
    obtain ⟨views, hviews⟩ := Members.contents?_of_not_isVariable members h bytes
    exact ⟨_, fun heap ↦ ElementType.contents?_compound_eq_some.2 ⟨_, hviews heap, rfl⟩⟩

theorem Members.contents?_of_not_isVariable (members : Members)
    (h : members.isVariable = false) (bytes : Bytes) :
    ∃ views, ∀ heap, members.contents? heap bytes = some ⟨views, []⟩ := by
  match members, h with
  | .nil, _ => exact ⟨[], fun _ ↦ rfl⟩
  | .cons name offset type rest, h =>
    obtain ⟨htype, hrest⟩ := Bool.or_eq_false_iff.1 h
    obtain ⟨first, hfirst⟩ := ElementType.contents?_of_not_isVariable type htype
      (Bytes.cut bytes offset.toNat type.width)
    obtain ⟨others, hothers⟩ := Members.contents?_of_not_isVariable rest hrest bytes
    refine ⟨first ++ others, fun heap ↦ ?_⟩
    exact Members.contents?_cons_eq_some.2 ⟨_, _, hfirst heap, hothers heap, rfl⟩

end

/-! ### Contents of zero bytes -/

/-- Every byte is zero. -/
def Bytes.IsZero (bytes : Bytes) : Prop := ∀ b ∈ bytes, b = 0

namespace Bytes.IsZero

variable {bytes : Bytes}

theorem parts (bytes : Bytes) (n : Nat) (h : IsZero bytes) :
    IsZero (bytes.take n) ∧ IsZero (bytes.drop n) :=
  ⟨fun b hb ↦ h b (List.mem_of_mem_take hb), fun b hb ↦ h b (List.mem_of_mem_drop hb)⟩

theorem cut (h : IsZero bytes) (start count : Nat) : IsZero (Bytes.cut bytes start count) :=
  (parts _ count (parts bytes start h).2).1

theorem toNat_eq (h : IsZero bytes) : Bytes.toNat bytes = 0 := by
  induction bytes with
  | nil => rfl
  | cons b rest ih =>
    have hb := h b List.mem_cons_self
    have hrest := ih fun c hc ↦ h c (List.mem_cons_of_mem _ hc)
    rw [Bytes.toNat, hrest, hb]
    rfl

end Bytes.IsZero

theorem Bytes.isZero_zeros (n : Nat) : Bytes.IsZero (Bytes.zeros n) :=
  fun _ hb ↦ List.eq_of_mem_replicate hb

mutual

/-- Zero bytes lead nowhere. -/
theorem ElementType.contents?_of_isZero (type : ElementType) {bytes : Bytes} (h : bytes.IsZero) :
    ∃ views, ∀ heap, type.contents? heap bytes = some ⟨views, []⟩ := by
  match type with
  | .number _ => exact ⟨_, fun _ ↦ rfl⟩
  | .fixedString _ => exact ⟨_, fun _ ↦ rfl⟩
  | .reference _ => exact ⟨_, fun _ ↦ rfl⟩
  | .enum _ _ => exact ⟨_, fun _ ↦ rfl⟩
  | .string => exact ⟨_, fun _ ↦ Contents.ofString?_eq_some.2 (.inl ⟨h.toNat_eq, rfl⟩)⟩
  | .vlen element =>
    exact ⟨_, fun _ ↦ (Contents.ofSequence?_eq_some rfl rfl).2 (.inl ⟨(h.cut 8 8).toNat_eq, rfl⟩)⟩
  | .array element length =>
    obtain ⟨views, hviews⟩ := Contents.ofItems?_of_parts Bytes.IsZero.parts
      (fun _ h ↦ ElementType.contents?_of_isZero element h) element.width length.toNat h
    exact ⟨[.items views], fun heap ↦ ElementType.contents?_array_eq_some.2 ⟨_, hviews heap, rfl⟩⟩
  | .compound members size =>
    obtain ⟨views, hviews⟩ := Members.contents?_of_isZero members h
    exact ⟨_, fun heap ↦ ElementType.contents?_compound_eq_some.2 ⟨_, hviews heap, rfl⟩⟩

theorem Members.contents?_of_isZero (members : Members) {bytes : Bytes} (h : bytes.IsZero) :
    ∃ views, ∀ heap, members.contents? heap bytes = some ⟨views, []⟩ := by
  match members with
  | .nil => exact ⟨[], fun _ ↦ rfl⟩
  | .cons name offset type rest =>
    obtain ⟨first, hfirst⟩ := ElementType.contents?_of_isZero type (h.cut offset.toNat type.width)
    obtain ⟨others, hothers⟩ := Members.contents?_of_isZero rest h
    refine ⟨first ++ others, fun heap ↦ ?_⟩
    exact Members.contents?_cons_eq_some.2 ⟨_, _, hfirst heap, hothers heap, rfl⟩

end

/-! ### Records -/

theorem Members.holdsAddressAt_cons (name : String) (offset : Int) (type : ElementType)
    (rest : Members) (index : Nat) :
    (Members.cons name offset type rest).holdsAddressAt index =
      (type.isVariable && decide (offset.toNat ≤ index ∧ index < offset.toNat + type.width) ||
        rest.holdsAddressAt index) := rfl

/-- Members depend on their own bytes only. -/
theorem Members.contents?_congr {heap : Heap} {members : Members} {first second : Bytes}
    (h : ∀ m ∈ members.toList, Bytes.cut first m.offset.toNat m.type.width =
      Bytes.cut second m.offset.toNat m.type.width) :
    members.contents? heap first = members.contents? heap second := by
  match members with
  | .nil => rfl
  | .cons name offset type rest =>
    have hhead := h ⟨name, offset, type⟩ List.mem_cons_self
    have hrest : rest.contents? heap first = rest.contents? heap second :=
      Members.contents?_congr fun m hm ↦ h m (List.mem_cons_of_mem _ hm)
    dsimp only at hhead
    rw [Members.contents?, Members.contents?, hhead, hrest]

/-- The bytes of the first member do not belong to the others. -/
theorem Members.Inside.holdsAddressAt_tail {name : String} {offset : Int} {type : ElementType}
    {rest : Members} {width : Nat} (h : (Members.cons name offset type rest).Inside width)
    {index : Nat} (hstart : offset.toNat ≤ index) (hstop : index < offset.toNat + type.width) :
    rest.holdsAddressAt index = false := by
  refine Bool.eq_false_iff.2 fun hholds ↦ ?_
  obtain ⟨m, hm, hindex⟩ := List.any_eq_true.1 hholds
  rw [Bool.and_eq_true, decide_eq_true_eq] at hindex
  have hapart := h.head_apart hm
  omega

theorem Members.getElem?_blank (members : Members) (bytes : Bytes) (index : Nat) :
    (members.blank bytes)[index]? =
      bytes[index]?.map fun b ↦ if members.holdsAddressAt index then 0 else b := by
  rw [Members.blank, List.getElem?_mapIdx]

/-- Records of one length that differ only where addresses are stored. -/
theorem Members.blank_eq {members : Members} {first second : Bytes}
    (hlength : first.length = second.length)
    (h : ∀ index, members.holdsAddressAt index = false → first[index]? = second[index]?) :
    members.blank first = members.blank second := by
  apply List.ext_getElem?
  intro index
  rw [Members.getElem?_blank, Members.getElem?_blank]
  by_cases hholds : members.holdsAddressAt index = true
  · by_cases hlt : index < first.length
    · have hlt' : index < second.length := hlength ▸ hlt
      simp [hholds, hlt, hlt']
    · rw [List.getElem?_eq_none (by omega), List.getElem?_eq_none (by omega)]
  · rw [h index (Bool.eq_false_iff.2 hholds)]

/-! ### Contents that a change keeps -/

section Kept

variable {before after : Heap} {addresses : Nat → Prop}

theorem Contents.ofItems?_of_keeps {first second : Bytes → Option Contents}
    (hitem : ∀ bytes contents, first bytes = some contents → (∀ a ∈ contents.blocks, addresses a) →
      second bytes = some contents) {width count : Nat} {bytes : Bytes} {contents : Contents}
    (h : Contents.ofItems? first width count bytes = some contents)
    (hblocks : ∀ a ∈ contents.blocks, addresses a) :
    Contents.ofItems? second width count bytes = some contents := by
  induction count generalizing bytes contents with
  | zero => exact h
  | succ count ih =>
    obtain ⟨head, others, hhead, hothers, rfl⟩ := Contents.ofItems?_succ_eq_some.1 h
    refine Contents.ofItems?_succ_eq_some.2 ⟨head, others, ?_, ?_, rfl⟩
    · exact hitem _ _ hhead fun a ha ↦ hblocks a (List.mem_append_left _ ha)
    · exact ih hothers fun a ha ↦ hblocks a (List.mem_append_right _ ha)

mutual

/-- Contents stay as they are when the reads at their blocks do. -/
theorem ElementType.contents?_of_keepsReads (hkeeps : Heap.KeepsReads addresses before after)
    (type : ElementType) {bytes : Bytes} {contents : Contents}
    (h : type.contents? before bytes = some contents)
    (hblocks : ∀ a ∈ contents.blocks, addresses a) :
    type.contents? after bytes = some contents := by
  match type with
  | .number _ => exact h
  | .fixedString _ => exact h
  | .reference _ => exact h
  | .enum _ _ => exact h
  | .string =>
    rcases Contents.ofString?_eq_some.1 h with hnull | ⟨hnull, text, hread, rfl⟩
    · exact Contents.ofString?_eq_some.2 (.inl hnull)
    · have hkept := hkeeps.readString _ (hblocks _ (List.mem_singleton.2 rfl)) _ hread
      exact Contents.ofString?_eq_some.2 (.inr ⟨hnull, text, hkept, rfl⟩)
  | .vlen element =>
    rcases (Contents.ofSequence?_eq_some rfl rfl).1 h with
      hnull | ⟨hnull, payload, items, hread, hitems, rfl⟩
    · exact (Contents.ofSequence?_eq_some rfl rfl).2 (.inl hnull)
    · have hkept := hkeeps.read _ _
        (hblocks _ (List.mem_append_right _ (List.mem_singleton.2 rfl))) _ hread
      refine (Contents.ofSequence?_eq_some rfl rfl).2 (.inr ⟨hnull, payload, items, hkept, ?_, rfl⟩)
      refine Contents.ofItems?_of_keeps (fun bytes contents h hblocks ↦ ?_) hitems
        fun a ha ↦ hblocks a (List.mem_append_left _ ha)
      exact ElementType.contents?_of_keepsReads hkeeps element h hblocks
  | .array element length =>
    obtain ⟨items, hitems, rfl⟩ := ElementType.contents?_array_eq_some.1 h
    refine ElementType.contents?_array_eq_some.2 ⟨items, ?_, rfl⟩
    refine Contents.ofItems?_of_keeps (fun bytes contents h hblocks ↦ ?_) hitems hblocks
    exact ElementType.contents?_of_keepsReads hkeeps element h hblocks
  | .compound members size =>
    obtain ⟨items, hitems, rfl⟩ := ElementType.contents?_compound_eq_some.1 h
    exact ElementType.contents?_compound_eq_some.2
      ⟨items, Members.contents?_of_keepsReads hkeeps members hitems hblocks, rfl⟩

theorem Members.contents?_of_keepsReads (hkeeps : Heap.KeepsReads addresses before after)
    (members : Members) {bytes : Bytes} {contents : Contents}
    (h : members.contents? before bytes = some contents)
    (hblocks : ∀ a ∈ contents.blocks, addresses a) :
    members.contents? after bytes = some contents := by
  match members with
  | .nil => exact h
  | .cons name offset type rest =>
    obtain ⟨first, others, hfirst, hothers, rfl⟩ := Members.contents?_cons_eq_some.1 h
    refine Members.contents?_cons_eq_some.2 ⟨first, others, ?_, ?_, rfl⟩
    · exact ElementType.contents?_of_keepsReads hkeeps type hfirst
        fun a ha ↦ hblocks a (List.mem_append_left _ ha)
    · exact Members.contents?_of_keepsReads hkeeps rest hothers
        fun a ha ↦ hblocks a (List.mem_append_right _ ha)

end

end Kept

/-! ### Reading in growing heaps -/

/-- How bytes are read as contents. -/
abbrev ContentsReader : Type := Heap → Bytes → Option Contents

/-- What is read in a heap is read in every heap that has grown from it. -/
def ContentsReader.Grows (read : ContentsReader) : Prop :=
  ∀ {before after : Heap} {added : List Nat}, before.Sound → before.Grown after added →
    ∀ {bytes : Bytes} {contents : Contents}, read before bytes = some contents →
      read after bytes = some contents

theorem ElementType.contents?_grows (type : ElementType) :
    ContentsReader.Grows fun heap ↦ type.contents? heap := by
  intro before after added hsound hgrown bytes contents h
  exact type.contents?_of_keepsReads (hgrown.keepsReads hsound) h fun _ _ ↦ trivial

theorem Members.contents?_grows (members : Members) :
    ContentsReader.Grows fun heap ↦ members.contents? heap := by
  intro before after added hsound hgrown bytes contents h
  exact members.contents?_of_keepsReads (hgrown.keepsReads hsound) h fun _ _ ↦ trivial

theorem ElementType.ofItems?_grows (type : ElementType) (width count : Nat) :
    ContentsReader.Grows fun heap ↦ Contents.ofItems? (type.contents? heap) width count := by
  intro before after added hsound hgrown bytes contents h
  refine Contents.ofItems?_of_keeps (fun bytes contents h (_ : ∀ a ∈ contents.blocks, True) ↦ ?_) h
    fun _ _ ↦ trivial
  exact type.contents?_grows hsound hgrown h

end Stowage
