import Stowage.Proofs.Heap.Change

/-!
# Copying and freeing as changes of the heap

Copying payloads changes the heap only where it places bytes, and freeing them only where it frees a
block. Whatever the type, the position and the buffer, and whether it is refused on the way or not,
copying stays within every reflexive and transitive relation that placing bytes stays within
(`preserves_copyEach`), and freeing within every one that freeing a block does
(`preserves_freeEach`). In particular both free blocks and add blocks and do nothing else to the
heap (`evolves_copyEach`, `evolves_freeEach`).
-/

set_option autoImplicit false

namespace Stowage

open Stowage.Action (Preserves)
open Heap (Evolves)

/-- A relation between heaps that an operation stays within, however often it is carried out. -/
structure Heap.StaysWithin {α β : Type} (r : Heap → Heap → Prop) (operation : α → Action Heap β) :
    Prop where
  /-- The heap may stay. -/
  refl : ∀ heap, r heap heap
  /-- One change after another. -/
  trans : ∀ first second third, r first second → r second third → r first third
  /-- The operation is carried out. -/
  step : ∀ a, Preserves r (operation a)

variable {r : Heap → Heap → Prop}

/-! ### Copying -/

section Copying

variable (h : Heap.StaysWithin r Heap.place)

include h

theorem preserves_copyString (position : Int) (buffer : Bytes) :
    Preserves r (copyString position buffer) := by
  refine Preserves.bind h.trans (Action.preserves_ofExcept h.refl _) fun address ↦ ?_
  split
  · exact Action.preserves_pure h.refl _
  · refine Preserves.bind h.trans (Action.preserves_reading h.refl _) fun text ↦ ?_
    refine Preserves.bind h.trans (h.step _) fun copy ↦ ?_
    exact Action.preserves_ofExcept h.refl _

theorem preserves_copySequence {size : Int} {inner : Nat → Bytes → Action Heap Bytes}
    (hinner : ∀ count payload, Preserves r (inner count payload)) (position : Int)
    (buffer : Bytes) : Preserves r (copySequence size inner position buffer) := by
  refine Preserves.bind h.trans (Action.preserves_ofExcept h.refl _) fun entry ↦ ?_
  dsimp only
  split
  · exact Action.preserves_pure h.refl _
  · refine Preserves.bind h.trans (Action.preserves_reading h.refl _) fun payload ↦ ?_
    refine Preserves.bind h.trans (hinner _ _) fun payload ↦ ?_
    refine Preserves.bind h.trans (h.step _) fun copy ↦ ?_
    exact Action.preserves_ofExcept h.refl _

mutual

theorem ElementType.preserves_copyAt (type : ElementType) (position : Int) (buffer : Bytes) :
    Preserves r (type.copyAt position buffer) := by
  match type with
  | .number _ => exact Action.preserves_pure h.refl _
  | .fixedString _ => exact Action.preserves_pure h.refl _
  | .reference _ => exact Action.preserves_pure h.refl _
  | .enum _ _ => exact Action.preserves_pure h.refl _
  | .string => exact preserves_copyString h position buffer
  | .vlen element =>
    rw [ElementType.copyAt]
    refine preserves_copySequence h (fun count payload ↦ ?_) position buffer
    split
    · exact Preserves.iterate h.refl h.trans
        (fun k payload ↦ ElementType.preserves_copyAt element _ payload) _ _ _
    · exact Action.preserves_pure h.refl _
  | .array element length =>
    rw [ElementType.copyAt]
    split
    · exact Preserves.iterate h.refl h.trans
        (fun k buffer ↦ ElementType.preserves_copyAt element _ buffer) _ _ _
    · exact Action.preserves_pure h.refl _
  | .compound members size =>
    rw [ElementType.copyAt]
    exact Members.preserves_copyAt members position buffer

theorem Members.preserves_copyAt (members : Members) (position : Int) (buffer : Bytes) :
    Preserves r (members.copyAt position buffer) := by
  match members with
  | .nil => exact Action.preserves_pure h.refl _
  | .cons name offset type rest =>
    rw [Members.copyAt]
    split
    · exact Preserves.bind h.trans (ElementType.preserves_copyAt type _ buffer)
        fun buffer ↦ Members.preserves_copyAt rest position buffer
    · exact Members.preserves_copyAt rest position buffer

end

theorem ElementType.preserves_copyEach (type : ElementType) (count : Nat) (buffer : Bytes) :
    Preserves r (type.copyEach count buffer) := by
  unfold copyEach
  split
  · exact Preserves.iterate h.refl h.trans
      (fun k buffer ↦ type.preserves_copyAt h _ buffer) _ _ _
  · exact Action.preserves_pure h.refl _

end Copying

/-! ### Freeing -/

section Freeing

variable (h : Heap.StaysWithin r Heap.free)

include h

theorem preserves_freeString (position : Int) (buffer : Bytes) :
    Preserves r (freeString position buffer) := by
  refine Preserves.bind h.trans (Action.preserves_ofExcept h.refl _) fun address ↦ ?_
  split
  · exact Action.preserves_pure h.refl _
  · exact h.step _

theorem preserves_freeSequence {inner : Nat → Nat → Action Heap Unit}
    (hinner : ∀ count address, Preserves r (inner count address)) (position : Int)
    (buffer : Bytes) : Preserves r (freeSequence inner position buffer) := by
  refine Preserves.bind h.trans (Action.preserves_ofExcept h.refl _) fun entry ↦ ?_
  dsimp only
  split
  · exact Action.preserves_pure h.refl _
  · exact Preserves.bind h.trans (hinner _ _) fun _ ↦ h.step _

mutual

theorem ElementType.preserves_freeAt (type : ElementType) (position : Int) (buffer : Bytes) :
    Preserves r (type.freeAt position buffer) := by
  match type with
  | .number _ => exact Action.preserves_pure h.refl _
  | .fixedString _ => exact Action.preserves_pure h.refl _
  | .reference _ => exact Action.preserves_pure h.refl _
  | .enum _ _ => exact Action.preserves_pure h.refl _
  | .string => exact preserves_freeString h position buffer
  | .vlen element =>
    rw [ElementType.freeAt]
    refine preserves_freeSequence h (fun count address ↦ ?_) position buffer
    split
    · refine Preserves.bind h.trans (Action.preserves_reading h.refl _) fun payload ↦ ?_
      exact Preserves.iterate h.refl h.trans
        (fun k _ ↦ ElementType.preserves_freeAt element _ payload) _ _ _
    · exact Action.preserves_pure h.refl _
  | .array element length =>
    rw [ElementType.freeAt]
    split
    · exact Preserves.iterate h.refl h.trans
        (fun k _ ↦ ElementType.preserves_freeAt element _ buffer) _ _ _
    · exact Action.preserves_pure h.refl _
  | .compound members size =>
    rw [ElementType.freeAt]
    exact Members.preserves_freeAt members position buffer

theorem Members.preserves_freeAt (members : Members) (position : Int) (buffer : Bytes) :
    Preserves r (members.freeAt position buffer) := by
  match members with
  | .nil => exact Action.preserves_pure h.refl _
  | .cons name offset type rest =>
    rw [Members.freeAt]
    split
    · exact Preserves.bind h.trans (ElementType.preserves_freeAt type _ buffer)
        fun _ ↦ Members.preserves_freeAt rest position buffer
    · exact Members.preserves_freeAt rest position buffer

end

theorem ElementType.preserves_freeEach (type : ElementType) (count : Nat) (buffer : Bytes) :
    Preserves r (type.freeEach count buffer) := by
  unfold freeEach
  split
  · exact Preserves.iterate h.refl h.trans
      (fun k _ ↦ type.preserves_freeAt h _ buffer) _ _ _
  · exact Action.preserves_pure h.refl _

end Freeing

namespace ElementType

theorem evolves_copyEach (type : ElementType) (count : Nat) (buffer : Bytes) :
    Preserves Evolves (type.copyEach count buffer) :=
  type.preserves_copyEach ⟨Evolves.refl, Evolves.trans, Heap.evolves_place⟩ count buffer

theorem evolves_freeEach (type : ElementType) (count : Nat) (buffer : Bytes) :
    Preserves Evolves (type.freeEach count buffer) :=
  type.preserves_freeEach ⟨Evolves.refl, Evolves.trans, Heap.evolves_free⟩ count buffer

end ElementType

end Stowage
