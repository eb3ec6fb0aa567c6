import Stowage.Proofs.Outcome
import Stowage.Proofs.Payloads.Values

/-!
# Elements at their positions

Whatever goes through stored elements one after another, by position, finds at each position an
element with one view, which is the view at this position in the contents of all of them
(`ElementType.looksLike_of_contentsEach?`).
-/

set_option autoImplicit false

namespace Stowage

/-- An element of the given bytes has one view. -/
def ElementType.LooksLike (type : ElementType) (heap : Heap) (bytes : Bytes) (view : View) : Prop :=
  ∃ blocks, type.contents? heap bytes = some ⟨[view], blocks⟩

/-- The element with a number lies in a buffer and has the given view. -/
structure ElementType.LooksLikeAt (type : ElementType) (heap : Heap) (buffer : Bytes) (number : Nat)
    (view : View) : Prop where
  /-- The element lies in the buffer. -/
  stop_le : number * type.width + type.width ≤ buffer.length
  /-- The element has the view. -/
  looksLike : type.LooksLike heap (Bytes.cut buffer (number * type.width) type.width) view

variable {heap : Heap} {bytes : Bytes} {contents : Contents}

/-- Contents of one element have one view. -/
theorem ElementType.looksLike_of_contents? {type : ElementType}
    (h : type.contents? heap bytes = some contents) :
    ∃ view, contents.views = [view] ∧ type.LooksLike heap bytes view := by
  have hview : ∃ view, contents.views = [view] := by
    cases type with
    | number | fixedString | reference | enum =>
      obtain rfl := Option.some.inj h
      exact ⟨_, rfl⟩
    | string =>
      rcases Contents.ofString?_eq_some.1 h with ⟨_, rfl⟩ | ⟨_, _, _, rfl⟩ <;> exact ⟨_, rfl⟩
    | vlen element =>
      rcases (Contents.ofSequence?_eq_some rfl rfl).1 h with ⟨_, rfl⟩ | ⟨_, _, _, _, _, rfl⟩ <;>
        exact ⟨_, rfl⟩
    | array element length =>
      obtain ⟨_, _, rfl⟩ := ElementType.contents?_array_eq_some.1 h
      exact ⟨_, rfl⟩
    | compound members size =>
      obtain ⟨_, _, rfl⟩ := ElementType.contents?_compound_eq_some.1 h
      exact ⟨_, rfl⟩
  obtain ⟨view, hview⟩ := hview
  refine ⟨view, hview, contents.blocks, h.trans ?_⟩
  rw [← hview]

/-! ### What elements of each type look like -/

namespace ElementType.LooksLike

variable {view : View}

theorem contents_inj {type : ElementType} {other : View} {blocks : List Nat}
    (h : type.LooksLike heap bytes view)
    (hcontents : type.contents? heap bytes = some ⟨[other], blocks⟩) : view = other := by
  obtain ⟨_, hview⟩ := h
  have hsame := Option.some.inj (hview.symm.trans hcontents)
  exact List.singleton_inj.1 (Contents.mk.inj hsame).1

/-- A string looks like the text that is read at its address. -/
theorem of_string (h : string.LooksLike heap bytes view) :
    (Bytes.toNat bytes = Heap.nullAddress ∧ view = .null 0) ∨
      (Bytes.toNat bytes ≠ Heap.nullAddress ∧ ∃ text,
        heap.readString (Bytes.toNat bytes) = .ok text ∧ view = .text text) := by
  obtain ⟨_, hview⟩ := id h
  rcases Contents.ofString?_eq_some.1 hview with
    ⟨hnull, hcontents⟩ | ⟨hnull, text, hread, hcontents⟩
  · exact .inl ⟨hnull, h.contents_inj (hview.trans (congrArg some hcontents))⟩
  · exact .inr ⟨hnull, text, hread, h.contents_inj (hview.trans (congrArg some hcontents))⟩

/-- A sequence looks like the items that are read at its address. -/
theorem of_vlen {element : ElementType} (h : (vlen element).LooksLike heap bytes view) :
    (Bytes.toNat (Bytes.cut bytes 8 8) = Heap.nullAddress ∧
        view = .null (Bytes.toNat (Bytes.cut bytes 0 8))) ∨
      (Bytes.toNat (Bytes.cut bytes 8 8) ≠ Heap.nullAddress ∧ ∃ payload items,
        heap.read (Bytes.toNat (Bytes.cut bytes 8 8))
          ((Bytes.toNat (Bytes.cut bytes 0 8) * element.width : Nat) : Int) = .ok payload ∧
        Contents.ofItems? (element.contents? heap) element.width (Bytes.toNat (Bytes.cut bytes 0 8))
          payload = some items ∧
        view = .items items.views) := by
  obtain ⟨_, hview⟩ := id h
  rcases (Contents.ofSequence?_eq_some rfl rfl).1 hview with
    ⟨hnull, hcontents⟩ | ⟨hnull, payload, items, hread, hitems, hcontents⟩
  · exact .inl ⟨hnull, h.contents_inj (hview.trans (congrArg some hcontents))⟩
  · exact .inr ⟨hnull, payload, items, hread, hitems,
      h.contents_inj (hview.trans (congrArg some hcontents))⟩

/-- An array looks like its items. -/
theorem of_array {element : ElementType} {length : Int}
    (h : (array element length).LooksLike heap bytes view) :
    ∃ items, Contents.ofItems? (element.contents? heap) element.width length.toNat bytes =
      some items ∧ view = .items items.views := by
  obtain ⟨_, hview⟩ := id h
  obtain ⟨items, hitems, hcontents⟩ := contents?_array_eq_some.1 hview
  exact ⟨items, hitems, h.contents_inj (hview.trans (congrArg some hcontents))⟩

/-- A record looks like its members. -/
theorem of_compound {members : Members} {size : Int}
    (h : (compound members size).LooksLike heap bytes view) :
    ∃ items, members.contents? heap bytes = some items ∧
      view = .record (members.blank bytes) items.views := by
  obtain ⟨_, hview⟩ := id h
  obtain ⟨items, hitems, hcontents⟩ := contents?_compound_eq_some.1 hview
  exact ⟨items, hitems, h.contents_inj (hview.trans (congrArg some hcontents))⟩

end ElementType.LooksLike

/-! ### Elements back to back -/

/-- Each of the elements has one view. -/
theorem ElementType.length_views {type : ElementType} {width count : Nat}
    (h : Contents.ofItems? (type.contents? heap) width count bytes = some contents) :
    contents.views.length = count := by
  induction count generalizing bytes contents with
  | zero =>
    obtain rfl := Option.some.inj h
    rfl
  | succ count ih =>
    obtain ⟨first, others, hfirst, hothers, rfl⟩ := Contents.ofItems?_succ_eq_some.1 h
    obtain ⟨view, hview, _⟩ := looksLike_of_contents? hfirst
    rw [Contents.views_append, hview, List.length_append, ih hothers, List.length_singleton,
      Nat.add_comm]

/-- Assumes: elements back to back from the one with a number on, and contents of them. At every
position there is an element with the view in its place. -/
theorem ElementType.looksLikeAt_of_ofItems? {type : ElementType} {buffer : Bytes}
    {number count : Nat} (hfits : (number + count) * type.width ≤ buffer.length)
    (h : Contents.ofItems? (type.contents? heap) type.width count
      (buffer.drop (number * type.width)) = some contents) :
    List.Forall₂ (type.LooksLikeAt heap buffer) (List.range' number count) contents.views := by
  induction count generalizing number contents with
  | zero =>
    obtain rfl := Option.some.inj h
    exact .nil
  | succ count ih =>
    obtain ⟨first, others, hfirst, hothers, rfl⟩ := Contents.ofItems?_succ_eq_some.1 h
    obtain ⟨view, hview, hlooks⟩ := looksLike_of_contents? hfirst
    have hnext : (number + 1) * type.width = number * type.width + type.width := Nat.succ_mul _ _
    have hle : (number + 1) * type.width ≤ (number + (count + 1)) * type.width :=
      Nat.mul_le_mul_right _ (by omega)
    rw [List.drop_drop, ← hnext] at hothers
    have hrest := ih (by rwa [Nat.add_right_comm, Nat.add_assoc]) hothers
    rw [List.range'_succ, Contents.views_append, hview]
    exact .cons ⟨by omega, hlooks⟩ hrest

/-- Elements that fill a buffer. -/
theorem ElementType.looksLikeAt_of_contentsEach? {type : ElementType} {buffer : Bytes} {count : Nat}
    (hlength : buffer.length = count * type.width)
    (h : Contents.ofItems? (type.contents? heap) type.width count buffer = some contents) :
    List.Forall₂ (type.LooksLikeAt heap buffer) (List.range' 0 count) contents.views := by
  refine looksLikeAt_of_ofItems? ?_ ?_
  · rw [Nat.zero_add, hlength]
  · rw [Nat.zero_mul, List.drop_zero]
    exact h

end Stowage
