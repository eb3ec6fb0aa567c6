import Stowage.Proofs.Payloads.Free
import Stowage.Proofs.Record.Layout

/-!
# Freeing elements that lead to plain blocks

The texts of a record of numbers and strings hold no addresses, and neither do the items of a
sequence of plain elements. So which blocks freeing such an element asks for can be told from its
own bytes (`ElementType.FreesDirectly`). What elements of it led to once, in whatever heap, are the
blocks that freeing them frees in any other (`ElementType.freeEach_frees_direct`), even when the
memory was written to in between.
-/

set_option autoImplicit false

namespace Stowage

open RecordLayout (isFieldType)

theorem Members.freeAt_frees_direct (members : Members) {width : Nat} (h : members.Inside width)
    (hfields : ∀ m ∈ members.toList, isFieldType m.type = true) {followed : Heap} (heap : Heap)
    {buffer : Bytes} {position : Nat} {contents : Contents}
    (hfits : position + width ≤ buffer.length)
    (hcontents : members.contents? followed (Bytes.cut buffer position width) = some contents) :
    heap.Frees contents.blocks (members.freeAt position buffer) := by
  match members, h with
  | .nil, _ =>
    obtain rfl := Option.some.inj hcontents
    exact .pure
  | .cons name offset type rest, h =>
    obtain ⟨first, others, hfirst, hothers, rfl⟩ := Members.contents?_cons_eq_some.1 hcontents
    have hstop := h.stop_le _ List.mem_cons_self
    obtain ⟨hoffset, htype, _⟩ := h.laid
    dsimp only at hstop
    have hposition : (position : Int) + offset = ((position + offset.toNat : Nat) : Int) := by
      omega
    have hrest := Members.freeAt_frees_direct rest h.tail
      (fun m hm ↦ hfields m (List.mem_cons_of_mem _ hm)) heap hfits hothers
    rw [Members.freeAt]
    by_cases hvariable : type.isVariable = true
    · obtain rfl := RecordLayout.eq_string_of_isVariable
        (hfields ⟨name, offset, type⟩ List.mem_cons_self) hvariable
      rw [Bytes.cut_cut buffer hstop] at hfirst
      rw [if_pos hvariable, hposition]
      exact (ElementType.frees_string heap (by omega) hfirst).bind hrest
    · obtain ⟨views, hviews⟩ := ElementType.contents?_of_not_isVariable type
        (Bool.eq_false_iff.2 hvariable) (Bytes.cut (Bytes.cut buffer position width) offset.toNat
          type.width)
      obtain rfl := Option.some.inj (hfirst.symm.trans (hviews followed))
      rw [if_neg hvariable]
      exact hrest

namespace ElementType

/-- What an element of the type led to once, in whatever heap, are the blocks that freeing it frees
in any other. -/
def FreesDirectly (type : ElementType) : Prop :=
  ∀ (followed heap : Heap) {buffer : Bytes} {position : Nat} {contents : Contents},
    position + type.width ≤ buffer.length →
      type.contents? followed (Bytes.cut buffer position type.width) = some contents →
        heap.Frees contents.blocks (type.freeAt position buffer)

/-- Records of numbers and strings are freed by their own bytes. -/
theorem freesDirectly_compound {members : Members} {size : Int}
    (hlaid : (compound members size).Laid)
    (hfields : ∀ m ∈ members.toList, isFieldType m.type = true) :
    (compound members size).FreesDirectly := by
  intro followed heap buffer position contents hfits hcontents
  obtain ⟨items, hitems, rfl⟩ := contents?_compound_eq_some.1 hcontents
  have hall := Members.freeAt_frees_direct members hlaid.inside hfields heap hfits hitems
  exact hall

/-- Sequences of elements without addresses are freed by their own bytes. -/
theorem freesDirectly_vlen {element : ElementType} (hinline : element.isVariable = false) :
    (vlen element).FreesDirectly := by
  intro followed heap buffer position contents hfits hcontents
  exact frees_vlen hfits hcontents fun hvariable ↦ absurd hvariable (by simp [hinline])

/-- Assumes: a type that is laid out and freed by its own bytes when it holds addresses, and what
elements of it led to in some heap. In any heap, freeing them frees these blocks and nothing
else. -/
theorem freeEach_frees_direct {type : ElementType} (hlaid : type.Laid)
    (hdirect : type.isVariable = true → type.FreesDirectly) {followed : Heap} (heap : Heap)
    {count : Nat} {buffer : Bytes} {contents : Contents}
    (hfits : count * type.width ≤ buffer.length)
    (hcontents : Contents.ofItems? (type.contents? followed) type.width count buffer =
      some contents) :
    heap.Frees contents.blocks (type.freeEach count buffer) := by
  have hpositions : (fun (k : Nat) (_ : Unit) ↦ type.freeAt ((k : Int) * type.size) buffer) =
      fun k _ ↦ type.freeAt ((0 + k * type.width : Nat) : Int) buffer := by
    funext k _
    rw [hlaid.mul_size, Nat.zero_add]
  rw [freeEach]
  by_cases hvariable : type.isVariable = true
  · rw [if_pos hvariable, hpositions]
    have hone (position : Nat) (first : Contents) (hstep : position + type.width ≤ buffer.length)
        (hfound : type.contents? followed (Bytes.cut buffer position type.width) = some first)
        (_ : ∀ a ∈ first.blocks, True) : heap.Frees first.blocks (type.freeAt position buffer) :=
      hdirect hvariable followed heap hstep hfound
    refine Heap.Frees.iterate hone ?_ ?_ fun _ _ ↦ trivial
    · rw [Nat.zero_add, Nat.zero_add]
      exact hfits
    · rw [Nat.zero_mul, Nat.add_zero, List.drop_zero]
      exact hcontents
  · rw [if_neg hvariable, blocks_eq_nil_of_not_isVariable (Bool.eq_false_iff.2 hvariable) hcontents]
    exact .pure

end ElementType

/-- Records of an accepted layout are freed by their own bytes. -/
theorem RecordLayout.Accepted.freesDirectly {layout : RecordLayout} (h : layout.Accepted)
    (hsize : 0 ≤ layout.size) : layout.recordType.FreesDirectly :=
  ElementType.freesDirectly_compound (h.laid hsize) fun _ hm ↦
    h.isFieldType (by rwa [Members.toList_ofList] at hm)

end Stowage
