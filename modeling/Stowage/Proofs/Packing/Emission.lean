import Stowage.Proofs.Bytes
import Stowage.Proofs.Packing.Ledger
import Stowage.Proofs.Payloads.Values
import Stowage.Sequence.Packing

/-!
# What packing emits

When packing bytes succeeds, blocks were added on top of the heap and noted, and the packed bytes
lead to exactly these blocks, in order (`Emitted`). One emission after another is an emission
(`Emitted.append`), so what the views tell about every value they tell about all of them
(`emits_collect`), whatever it is, as long as it can be told part by part (`Joins`). In general the
views stand for what becomes of the values that were packed (`joins_shows`).
-/

set_option autoImplicit false

namespace Stowage

/-- The bytes lead to exactly the blocks that were added and noted, and look as accepted. -/
structure Emitted (read : ContentsReader) (accepts : List View → Prop) (before after : Ledger)
    (added : List Nat) (bytes : Bytes) : Prop where
  /-- Blocks were added and nothing else happened. -/
  grown : before.heap.Grown after.heap added
  /-- The added blocks were noted. -/
  owned_eq : after.owned = before.owned ++ added
  /-- The bytes can be followed. -/
  contents : ∃ contents, read after.heap bytes = some contents ∧
    contents.blocks = added ∧ accepts contents.views

namespace Emitted

variable {read read' both : ContentsReader} {accepts accepts' acceptsBoth : List View → Prop}
  {before middle after : Ledger} {added added' : List Nat} {bytes bytes' whole : Bytes}

/-- Bytes that hold no addresses. -/
theorem inline (hsound : before.heap.Sound)
    (h : ∃ views, (∀ heap, read heap bytes = some ⟨views, []⟩) ∧ accepts views) :
    Emitted read accepts before before [] bytes := by
  obtain ⟨views, hread, haccepts⟩ := h
  exact ⟨.refl hsound, (List.append_nil _).symm, _, hread _, rfl, haccepts⟩

/-- Two emissions one after the other, read as one. -/
theorem append (first : Emitted read accepts before middle added bytes)
    (second : Emitted read' accepts' middle after added' bytes') (hgrows : read.Grows)
    (hboth : ∀ a b, read after.heap bytes = some a → read' after.heap bytes' = some b →
      accepts a.views → accepts' b.views →
      both after.heap whole = some (a.append b) ∧ acceptsBoth (a.append b).views) :
    Emitted both acceptsBoth before after (added ++ added') whole := by
  refine ⟨first.grown.trans second.grown, ?_, ?_⟩
  · rw [second.owned_eq, first.owned_eq, List.append_assoc]
  · obtain ⟨a, ha, hadded, haccepts⟩ := first.contents
    obtain ⟨b, hb, hadded', haccepts'⟩ := second.contents
    have haLater := hgrows first.grown.sound second.grown ha
    obtain ⟨hcontents, hviews⟩ := hboth a b haLater hb haccepts haccepts'
    exact ⟨_, hcontents, by rw [Contents.blocks_append, hadded, hadded'], hviews⟩

/-- An element and the elements behind it are elements back to back. -/
theorem cons {type : ElementType} {width count : Nat}
    (first : Emitted (fun heap ↦ type.contents? heap) accepts before middle added bytes)
    (hlength : bytes.length = width)
    (others : Emitted (fun heap ↦ Contents.ofItems? (type.contents? heap) width count) accepts'
      middle after added' bytes')
    (hviews : ∀ views views', accepts views → accepts' views' → acceptsBoth (views ++ views')) :
    Emitted (fun heap ↦ Contents.ofItems? (type.contents? heap) width (count + 1)) acceptsBoth
      before after (added ++ added') (bytes ++ bytes') := by
  refine first.append others type.contents?_grows fun a b ha hb haccepts haccepts' ↦ ?_
  refine ⟨Contents.ofItems?_succ_eq_some.2 ⟨a, b, ?_, ?_, rfl⟩, hviews _ _ haccepts haccepts'⟩
  · rw [List.take_left' hlength]
    exact ha
  · rw [List.drop_left' hlength]
    exact hb

/-- The same emission read in another way that leads to the same blocks. -/
theorem wrap (h : Emitted read accepts before after added bytes)
    (hread : ∀ contents, read after.heap bytes = some contents → accepts contents.views →
      ∃ contents', both after.heap whole = some contents' ∧ contents'.blocks = contents.blocks ∧
        acceptsBoth contents'.views) :
    Emitted both acceptsBoth before after added whole := by
  refine ⟨h.grown, h.owned_eq, ?_⟩
  obtain ⟨contents, hcontents, hadded, haccepts⟩ := h.contents
  obtain ⟨contents', hcontents', hblocks, haccepts'⟩ := hread contents hcontents haccepts
  exact ⟨contents', hcontents', hblocks.trans hadded, haccepts'⟩

end Emitted

/-- Whenever the action succeeds, the bytes of its result are emitted; there are as many as said. -/
def Emits {α : Type} (bytesOf : α → Bytes) (length : Nat) (read : ContentsReader)
    (accepts : List View → Prop) (x : Action Ledger α) : Prop :=
  ∀ before a after, before.heap.Sound → x.run before = (.ok a, after) →
    (bytesOf a).length = length ∧ ∃ added, Emitted read accepts before after added (bytesOf a)

section Emits

variable {α : Type} {bytesOf : α → Bytes} {length : Nat} {read : ContentsReader}
  {accepts : List View → Prop}

theorem emits_refuse (fault : Fault) :
    Emits bytesOf length read accepts (Action.refuse fault) := by
  intro before a after _ h
  exact absurd (Prod.mk.inj h).1 (by simp)

/-- An outcome that needs no heap gives bytes without addresses. -/
theorem emits_ofExcept {outcome : Except Fault α}
    (h : ∀ a, outcome = .ok a → (bytesOf a).length = length ∧
      ∃ views, (∀ heap, read heap (bytesOf a) = some ⟨views, []⟩) ∧ accepts views) :
    Emits bytesOf length read accepts (Action.ofExcept outcome) := by
  intro before a after hsound hrun
  obtain ⟨houtcome, rfl⟩ := Prod.mk.inj hrun
  obtain ⟨hlength, hinline⟩ := h a houtcome
  exact ⟨hlength, [], .inline hsound hinline⟩

theorem emits_map {β : Type} {bytesOf' : β → Bytes} {f : α → β} {x : Action Ledger α}
    (hf : ∀ a, bytesOf' (f a) = bytesOf a) (h : Emits bytesOf length read accepts x) :
    Emits bytesOf' length read accepts (x >>= fun a ↦ pure (f a)) := by
  intro before b after hsound hrun
  obtain ⟨a, middle, hx, hpure⟩ := Action.run_bind_eq_ok.1 hrun
  obtain ⟨hb, rfl⟩ := Prod.mk.inj hpure
  obtain rfl := Except.ok.inj hb
  rw [hf]
  exact h before a middle hsound hx

end Emits

/-- What views tell about values in order can be told part by part. -/
structure Joins (tells : List Value → List View → Prop) : Prop where
  /-- There is nothing to tell about no values. -/
  nil : tells [] []
  /-- What is told about two parts is told about both together. -/
  append : ∀ {first second : List Value} {views others : List View}, tells first views →
    tells second others → tells (first ++ second) (views ++ others)

theorem joins_shows (type : ElementType) : Joins type.Shows := ⟨.nil type, .append⟩

/-- Views that are seen as what is kept of the values. -/
theorem joins_map {α : Type} (seen : View → α) (kept : Value → α) :
    Joins fun values views ↦ views.map seen = values.map kept := by
  refine ⟨rfl, fun h h' ↦ ?_⟩
  rw [List.map_append, List.map_append, h, h']

/-- Assumes: every value is emitted as one element. Values one after another are emitted as elements
back to back. -/
theorem emits_collect {α : Type} {bytesOf : α → Bytes} {type : ElementType} {width : Nat}
    {tells : List Value → List View → Prop} (hjoins : Joins tells) {f : Value → Action Ledger α}
    (h : ∀ value, Emits bytesOf width (fun heap ↦ type.contents? heap) (tells [value]) (f value))
    (values : List Value) :
    Emits (fun as ↦ as.flatMap bytesOf) (values.length * width)
      (fun heap ↦ Contents.ofItems? (type.contents? heap) width values.length) (tells values)
      (Action.collect f values) := by
  induction values with
  | nil =>
    refine emits_ofExcept fun as has ↦ ?_
    obtain rfl := Except.ok.inj has
    exact ⟨(Nat.zero_mul _).symm, [], fun _ ↦ rfl, hjoins.nil⟩
  | cons value rest ih =>
    intro before as after hsound hrun
    rw [Action.collect] at hrun
    obtain ⟨a, middle, ha, hrun⟩ := Action.run_bind_eq_ok.1 hrun
    obtain ⟨others, last, hothers, hpure⟩ := Action.run_bind_eq_ok.1 hrun
    obtain ⟨hb, rfl⟩ := Prod.mk.inj hpure
    obtain rfl := Except.ok.inj hb
    obtain ⟨hlength, added, hemitted⟩ := h value before a middle hsound ha
    obtain ⟨hlengths, added', hemitted'⟩ := ih middle others last hemitted.grown.sound hothers
    dsimp only at hlengths hemitted' ⊢
    rw [List.flatMap_cons]
    refine ⟨?_, added ++ added', ?_⟩
    · rw [List.length_append, hlength, hlengths, List.length_cons, Nat.succ_mul, Nat.add_comm]
    · exact hemitted.cons hlength hemitted' fun _ _ htells htells' ↦ hjoins.append htells htells'

/-! ### Buffers -/

/-- Whenever the action succeeds, its buffer holds so many elements and leads to exactly the blocks
that were added, whose addresses are handed over. -/
def EmitsBuffer (type : ElementType) (count : Nat) (accepts : List View → Prop)
    (x : Action Heap (Bytes × List Nat)) : Prop :=
  ∀ heap out addresses after, heap.Sound → x.run heap = (.ok (out, addresses), after) →
    out.length = count * type.width ∧
      Emitted (fun heap ↦ Contents.ofItems? (type.contents? heap) type.width count) accepts
        ⟨heap, []⟩ ⟨after, addresses⟩ addresses out

section EmitsBuffer

variable {type : ElementType} {count : Nat} {accepts : List View → Prop}

theorem emitsBuffer_refuse (fault : Fault) :
    EmitsBuffer type count accepts (Action.refuse fault) := by
  intro heap out addresses after _ h
  exact absurd (Prod.mk.inj h).1 (by simp)

theorem emitsBuffer_ofExcept_bind {α : Type} {outcome : Except Fault α}
    {packing : α → Action Heap (Bytes × List Nat)}
    (h : ∀ a, outcome = .ok a → EmitsBuffer type count accepts (packing a)) :
    EmitsBuffer type count accepts (Action.ofExcept outcome >>= packing) := by
  intro heap out addresses after hsound hrun
  obtain ⟨a, middle, ha, hrun⟩ := Action.run_bind_eq_ok.1 hrun
  obtain ⟨houtcome, rfl⟩ := Prod.mk.inj ha
  exact h a houtcome heap out addresses after hsound hrun

/-- What looks as accepted also looks as anything that follows from it. -/
theorem EmitsBuffer.weaken {accepts' : List View → Prop} {x : Action Heap (Bytes × List Nat)}
    (h : EmitsBuffer type count accepts x) (haccepts : ∀ views, accepts views → accepts' views) :
    EmitsBuffer type count accepts' x := by
  intro heap out addresses after hsound hrun
  obtain ⟨hlength, hemitted⟩ := h heap out addresses after hsound hrun
  obtain ⟨contents, hcontents, hblocks, hviews⟩ := hemitted.contents
  exact ⟨hlength, hemitted.grown, hemitted.owned_eq, contents, hcontents, hblocks,
    haccepts _ hviews⟩

/-- What looks as accepted in two ways looks as accepted in both. -/
theorem EmitsBuffer.and {accepts' : List View → Prop} {x : Action Heap (Bytes × List Nat)}
    (h : EmitsBuffer type count accepts x) (h' : EmitsBuffer type count accepts' x) :
    EmitsBuffer type count (fun views ↦ accepts views ∧ accepts' views) x := by
  intro heap out addresses after hsound hrun
  obtain ⟨hlength, hemitted⟩ := h heap out addresses after hsound hrun
  obtain ⟨_, hemitted'⟩ := h' heap out addresses after hsound hrun
  obtain ⟨contents, hcontents, hblocks, hviews⟩ := hemitted.contents
  obtain ⟨_, hcontents', _, hviews'⟩ := hemitted'.contents
  obtain rfl := Option.some.inj (hcontents.symm.trans hcontents')
  exact ⟨hlength, hemitted.grown, hemitted.owned_eq, contents, hcontents, hblocks, hviews, hviews'⟩

/-- A settled packing emits what the packing does. -/
theorem emitsBuffer_settle {packing : Action Ledger Bytes} (order : List Nat → List Nat)
    (h : Emits id (count * type.width)
      (fun heap ↦ Contents.ofItems? (type.contents? heap) type.width count) accepts packing) :
    EmitsBuffer type count accepts (Ledger.settle order packing) := by
  intro heap out addresses after hsound hrun
  obtain ⟨hlength, added, hemitted⟩ := h _ _ _ hsound (Ledger.run_settle_eq_ok hrun)
  obtain rfl : addresses = added := hemitted.owned_eq
  exact ⟨hlength, hemitted⟩

/-- A buffer that is packed on the way is emitted when its blocks are noted. -/
theorem EmitsBuffer.emits {x : Action Heap (Bytes × List Nat)}
    (h : EmitsBuffer type count accepts x) :
    Emits id (count * type.width)
      (fun heap ↦ Contents.ofItems? (type.contents? heap) type.width count) accepts (do
        let (buffer, addresses) ← Ledger.onHeap x
        Ledger.note addresses
        pure buffer) := by
  intro before out after hsound hrun
  obtain ⟨⟨buffer, addresses⟩, middle, hpacked, hrun⟩ := Action.run_bind_eq_ok.1 hrun
  rw [Ledger.onHeap, Action.run_within] at hpacked
  obtain ⟨hresult, rfl⟩ := Prod.mk.inj hpacked
  obtain ⟨hbuffer, rfl⟩ := Prod.mk.inj hrun
  obtain rfl := Except.ok.inj hbuffer
  obtain ⟨hlength, hemitted⟩ := h _ _ _ _ hsound (Prod.ext hresult rfl)
  exact ⟨hlength, addresses, hemitted.grown, rfl, hemitted.contents⟩

end EmitsBuffer

/-! ### Bytes without addresses -/

/-- Parts of one width are elements back to back. -/
theorem Contents.ofItems?_flatten {item? : Bytes → Option Contents} {width : Nat}
    (hitem : ∀ bytes, item? bytes = some (.inline bytes)) {parts : List Bytes}
    (hparts : ∀ part ∈ parts, part.length = width) :
    Contents.ofItems? item? width parts.length parts.flatten =
      some ⟨parts.map View.inline, []⟩ := by
  induction parts with
  | nil => rfl
  | cons part rest ih =>
    have hpart := hparts part List.mem_cons_self
    have hrest := ih fun p hp ↦ hparts p (List.mem_cons_of_mem _ hp)
    refine Contents.ofItems?_succ_eq_some.2
      ⟨.inline part, ⟨rest.map View.inline, []⟩, ?_, ?_, rfl⟩
    · rw [List.flatten_cons, List.take_left' hpart]
      exact hitem part
    · rw [List.flatten_cons, List.drop_left' hpart]
      exact hrest

/-- Values that are laid out in parts of the width of the type. -/
theorem shows_of_parts {type : ElementType} {values : List Value} {parts : List Bytes}
    (hinline : ∀ heap bytes, type.contents? heap bytes = some (.inline bytes))
    (h : List.Forall₂ (fun value part ↦ part.length = type.width ∧
      type.viewed (.inline part) = type.normalised value) values parts) :
    parts.flatten.length = values.length * type.width ∧ ∃ views,
      (∀ heap, Contents.ofItems? (type.contents? heap) type.width values.length parts.flatten =
        some ⟨views, []⟩) ∧ type.Shows values views := by
  have hlengths : ∀ part ∈ parts, part.length = type.width := by
    induction h with
    | nil => exact fun part hpart ↦ absurd hpart List.not_mem_nil
    | cons hhead _ ih =>
      intro part hpart
      rcases List.mem_cons.1 hpart with rfl | hpart
      · exact hhead.1
      · exact ih part hpart
  have hshows : type.Shows values (parts.map View.inline) := by
    induction h with
    | nil => exact .nil type
    | cons hhead _ ih =>
      refine congrArg₂ List.cons hhead.2 (ih fun part hpart ↦ ?_)
      exact hlengths part (List.mem_cons_of_mem _ hpart)
  rw [h.length_eq]
  refine ⟨?_, _, fun heap ↦ Contents.ofItems?_flatten (hinline heap) hlengths, hshows⟩
  exact Bytes.length_flatten_of_forall hlengths

/-! ### Placed blocks -/

section Placed

variable {before after : Ledger} {address : Nat} {bytes : Bytes}

/-- A placed text is emitted by its address. -/
theorem emitted_of_place_text (hsound : before.heap.Sound) {value : Value}
    (htext : RecordLayout.textBytes? value = some bytes)
    (hrun : (Ledger.place (bytes ++ [0])).run before = (.ok address, after)) :
    Emitted (fun heap ↦ ElementType.string.contents? heap) (ElementType.string.Shows [value])
      before after [address] (Bytes.ofNat addressSize address) := by
  rw [Ledger.place_eq hsound] at hrun
  obtain ⟨haddress, rfl⟩ := Prod.mk.inj hrun
  obtain ⟨hfits, rfl⟩ := Buffer.wordNumber_eq_ok.1 haddress
  refine ⟨.place hsound _, rfl, ?_⟩
  have hword := Bytes.ofNat_eq_of_lt hfits
  have hread := Heap.readString_place hsound bytes
  refine ⟨⟨[.text (Bytes.untilNul bytes)], [before.heap.top]⟩, ?_, rfl, ?_⟩
  · refine Contents.ofString?_eq_some.2 (.inr ?_)
    rw [hword]
    exact ⟨hsound.top_ne_null, _, hread, rfl⟩
  · rw [ElementType.Shows, List.map_singleton, List.map_singleton, ElementType.normalised, htext]
    rfl

/-- The items of a sequence that were emitted and then placed are emitted by their number and the
address of their block. -/
theorem emitted_of_place_items {middle : Ledger} {added : List Nat} {element : ElementType}
    {count : Nat} {payload : Bytes} {accepts accepts' : List View → Prop}
    (hitems : Emitted (fun heap ↦ Contents.ofItems? (element.contents? heap) element.width count)
      accepts before middle added payload)
    (haccepts : ∀ views, accepts views → accepts' [.items views])
    (hlength : payload.length = count * element.width) (hcount : count < 256 ^ addressSize)
    (hrun : (Ledger.place payload).run middle = (.ok address, after)) :
    Emitted (fun heap ↦ (ElementType.vlen element).contents? heap) accepts' before after
      (added ++ [address]) (Buffer.entryBytes count address) := by
  have hmiddle := hitems.grown.sound
  rw [Ledger.place_eq hmiddle] at hrun
  obtain ⟨haddress, rfl⟩ := Prod.mk.inj hrun
  obtain ⟨hfits, rfl⟩ := Buffer.wordNumber_eq_ok.1 haddress
  have hplaced := Heap.Grown.place hmiddle payload
  refine ⟨hitems.grown.trans hplaced, ?_, ?_⟩
  · dsimp only
    rw [hitems.owned_eq, List.append_assoc]
  · obtain ⟨contents, hcontents, rfl, hviews⟩ := hitems.contents
    have hread := Heap.read_place hmiddle payload
    have hkept := element.ofItems?_grows _ _ hmiddle hplaced hcontents
    have haddress := (Buffer.toNat_cut_entryBytes_address count middle.heap.top).trans
      (Bytes.ofNat_eq_of_lt hfits)
    refine ⟨⟨[.items contents.views], contents.blocks ++ [middle.heap.top]⟩, ?_, rfl,
      haccepts _ hviews⟩
    refine (Contents.ofSequence?_eq_some
      (Buffer.toNat_cut_entryBytes_length middle.heap.top hcount) haddress).2 (.inr ?_)
    rw [← hlength]
    exact ⟨hmiddle.top_ne_null, payload, contents, hread, hkept, rfl⟩

end Placed

namespace Sequence

theorem textBytes_eq_ok {value : Value} {bytes : Bytes} :
    textBytes value = .ok bytes ↔ RecordLayout.textBytes? value = some bytes := by
  unfold textBytes
  split
  · next found hfound => rw [hfound, Except.ok.injEq, Option.some.injEq]
  · next hnone => simp [hnone]

/-- A fixed string is laid out when it is text and its width can be used. -/
theorem fixedPart_eq_ok {width : Int} {value : Value} {part : Bytes} :
    fixedPart width value = .ok part ↔ width < Buffer.indexLimit ∧
      ∃ bytes, RecordLayout.textBytes? value = some bytes ∧
        part = RecordLayout.fixedBytes width bytes := by
  rw [fixedPart, Outcome.bind_eq_ok]
  constructor
  · rintro ⟨bytes, hbytes, hpart⟩
    split at hpart
    · exact absurd hpart (by simp)
    · next hwidth =>
      exact ⟨Int.not_le.1 hwidth, bytes, textBytes_eq_ok.1 hbytes, (Except.ok.inj hpart).symm⟩
  · rintro ⟨hwidth, bytes, hbytes, rfl⟩
    exact ⟨bytes, textBytes_eq_ok.2 hbytes, if_neg (Int.not_le.2 hwidth)⟩

/-- A text is emitted by its address, a missing one by the null address. -/
theorem emits_placeText (value : Value) :
    Emits (Bytes.ofNat addressSize) addressSize (fun heap ↦ ElementType.string.contents? heap)
      (ElementType.string.Shows [value]) (placeText value) := by
  intro before address after hsound hrun
  refine ⟨Bytes.length_ofNat _ _, ?_⟩
  unfold placeText at hrun
  split at hrun
  · obtain ⟨haddress, rfl⟩ := Prod.mk.inj hrun
    obtain rfl := Except.ok.inj haddress
    exact ⟨[], .inline hsound ⟨[.null 0], fun _ ↦ rfl, rfl⟩⟩
  · obtain ⟨bytes, middle, hbytes, hplace⟩ := Action.run_bind_eq_ok.1 hrun
    obtain ⟨htext, rfl⟩ := Prod.mk.inj hbytes
    exact ⟨_, emitted_of_place_text hsound (textBytes_eq_ok.1 htext) hplace⟩

/-- What the views of its items tell about a value, the view of its sequence tells as well. -/
structure Wraps (tells : Value → List View → Prop) (tells' : List Value → List View → Prop) :
    Prop where
  /-- A sequence of items tells what they do. -/
  items : ∀ {value : Value} {views : List View}, tells value views → tells' [value] [.items views]
  /-- A null address tells it about a value without items. -/
  null : ∀ {value : Value}, value.items = [] → tells' [value] [.null 0]

theorem wraps_shows (element : ElementType) :
    Wraps (fun value ↦ element.Shows value.items) (ElementType.vlen element).Shows := by
  refine ⟨fun hshows ↦ ?_, fun hempty ↦ ?_⟩
  · rw [ElementType.Shows, List.map_singleton, List.map_singleton, ElementType.normalised, ← hshows]
    rfl
  · rw [ElementType.Shows, List.map_singleton, List.map_singleton, ElementType.normalised, hempty]
    rfl

/-- Assumes: the items of every value are emitted. A sequence is emitted by the number of its items
and the address of their block. -/
theorem emits_placeSequence {element : ElementType} {items : Value → Action Ledger Bytes}
    {tells : Value → List View → Prop} {tells' : List Value → List View → Prop}
    (hwraps : Wraps tells tells') (hitems : ∀ value, Emits id (value.items.length * element.width)
      (fun heap ↦ Contents.ofItems? (element.contents? heap) element.width value.items.length)
      (tells value) (items value)) (value : Value) :
    Emits (fun entry ↦ Buffer.entryBytes entry.1 entry.2) entrySize
      (fun heap ↦ (ElementType.vlen element).contents? heap) (tells' [value])
      (placeSequence items value) := by
  intro before entry after hsound hrun
  refine ⟨Buffer.length_entryBytes _ _, ?_⟩
  unfold placeSequence at hrun
  by_cases htruthy : value.isTruthy = true
  · rw [htruthy, Bool.not_true, if_neg (by simp)] at hrun
    obtain ⟨payload, middle, hpayload, hrun⟩ := Action.run_bind_eq_ok.1 hrun
    obtain ⟨address, last, hplace, hrun⟩ := Action.run_bind_eq_ok.1 hrun
    obtain ⟨count, _, hnumber, hpure⟩ := Action.run_bind_eq_ok.1 hrun
    obtain ⟨hfitting, rfl⟩ := Prod.mk.inj hnumber
    obtain ⟨hcount, rfl⟩ := Buffer.wordNumber_eq_ok.1 hfitting
    obtain ⟨hentry, rfl⟩ := Prod.mk.inj hpure
    obtain rfl := Except.ok.inj hentry
    obtain ⟨hlength, added, hemitted⟩ := hitems value before payload middle hsound hpayload
    exact ⟨_, emitted_of_place_items hemitted (fun _ ↦ hwraps.items) hlength hcount hplace⟩
  · have hempty := Value.items_of_not_isTruthy (Bool.eq_false_iff.2 htruthy)
    rw [Bool.eq_false_iff.2 htruthy, Bool.not_false, if_pos rfl] at hrun
    obtain ⟨hentry, rfl⟩ := Prod.mk.inj hrun
    obtain rfl := Except.ok.inj hentry
    exact ⟨[], .inline hsound ⟨[.null 0], fun _ ↦ rfl, hwraps.null hempty⟩⟩

end Sequence

end Stowage
