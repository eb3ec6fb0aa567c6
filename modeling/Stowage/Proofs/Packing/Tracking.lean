import Stowage.Proofs.Packing.Ledger
import Stowage.Proofs.Packing.Refusals
import Stowage.Sequence.Packing

/-!
# Packing notes what it allocates

Packing strings, records, sequences and arrays of any type keeps the ledger in step with the heap,
for any values and whether it succeeds or not, and is never refused by the memory of a sound heap
(`Ledger.Accounts`). So the blocks of a packed buffer are known to whoever packed it, and a refused
packing leaves nothing behind.
-/

set_option autoImplicit false

namespace Stowage

open Stowage.Action (Preserves)
open Ledger (Accounts accounts_ofExcept accounts_pure accounts_refuse accounts_place)

/-- What packing a whole buffer can come to: the buffer and the blocks it owns, all of them new, or
a fault that is not one of the memory and nothing new. -/
def Packs (packing : Action Heap (Bytes × List Nat)) : Prop :=
  ∀ heap : Heap, heap.Sound →
    (∃ out addresses after, packing.run heap = (.ok (out, addresses), after) ∧
      heap.Changed after [] addresses) ∨
    (∃ fault after, packing.run heap = (.error fault, after) ∧ heap.Changed after [] [] ∧
      ∀ cause, fault ≠ .memory cause)

theorem packs_refuse {fault : Fault} (h : ∀ cause, fault ≠ .memory cause) :
    Packs (Action.refuse fault) :=
  fun heap hsound ↦ .inr ⟨fault, heap, rfl, .refl hsound, h⟩

theorem packs_ofExcept_bind {α : Type} {outcome : Except Fault α}
    (houtcome : Outcome.NotMemory outcome) {packing : α → Action Heap (Bytes × List Nat)}
    (h : ∀ a, Packs (packing a)) : Packs (Action.ofExcept outcome >>= packing) := by
  intro heap hsound
  rcases outcome with fault | a
  · exact packs_refuse (Outcome.notMemory_error_iff.1 houtcome) heap hsound
  · exact h a heap hsound

theorem packs_settle {packing : Action Ledger Bytes} {order : List Nat → List Nat}
    (hpacking : Accounts packing) (horder : ∀ l, (order l).Perm l) :
    Packs (Ledger.settle order packing) := by
  intro heap hsound
  rcases Ledger.settle_cases hpacking.tracks horder hsound with
    ⟨out, ledger, _, hrun, hchanged⟩ | ⟨fault, ledger, after, hrefused, hrun, _, _, hchanged⟩
  · exact .inl ⟨out, ledger.owned, ledger.heap, hrun, hchanged⟩
  · have hfault := hpacking.notMemory ⟨heap, []⟩ hsound
    rw [hrefused] at hfault
    exact .inr ⟨fault, after, hrun, hchanged, Outcome.notMemory_error_iff.1 hfault⟩

theorem Packs.evolves {packing : Action Heap (Bytes × List Nat)} (h : Packs packing) :
    Preserves Heap.Evolves packing := by
  intro heap hsound
  rcases h heap hsound with ⟨_, _, after, hrun, hchanged⟩ | ⟨_, after, hrun, hchanged, _⟩
  · rw [hrun]
    exact ⟨_, _, hchanged⟩
  · rw [hrun]
    exact ⟨_, _, hchanged⟩

/-! ### Records -/

namespace RecordLayout

theorem accounts_packField (attached : Bool) (base : Int) (field : Member) (value : Value)
    (out : Bytes) : Accounts (packField attached base field value out) := by
  unfold packField
  split
  · exact accounts_ofExcept (notMemory_packNumber _ _ _ _ _)
  · split
    · exact accounts_refuse (by simp)
    · split
      · exact accounts_pure _
      · split
        · exact (accounts_place _).bind fun _ ↦
            accounts_ofExcept (Buffer.notMemory_storeWord _ _ _)
        · exact accounts_refuse (by simp)

theorem accounts_packFields (attached : Bool) (base : Int) (fields : List Member)
    (values : List Value) (out : Bytes) :
    Accounts (packFields attached base fields values out) := by
  induction fields generalizing values out with
  | nil => exact accounts_pure _
  | cons field fields ih =>
    cases values with
    | nil => exact accounts_pure _
    | cons value values =>
      exact (accounts_packField attached base field value out).bind fun out ↦ ih values out

theorem accounts_packFrom (layout : RecordLayout) (attached : Bool) (number : Nat)
    (records : List Value) (out : Bytes) :
    Accounts (layout.packFrom attached number records out) := by
  induction records generalizing number out with
  | nil => exact accounts_pure _
  | cons record rest ih =>
    rw [packFrom]
    split
    · exact accounts_refuse (by simp)
    · split
      · exact accounts_refuse (by simp)
      · exact (accounts_packFields attached _ _ _ out).bind fun out ↦ ih (number + 1) out

/-- Packed records own exactly the blocks added for them; refused ones leave none. -/
theorem packs_pack (layout : RecordLayout) (attached : Bool) (records : Value) :
    Packs (layout.pack attached records) := by
  unfold pack
  split
  · exact packs_refuse (by simp)
  · next elements _ =>
    refine packs_ofExcept_bind (Buffer.notMemory_zeroed _) fun out ↦ ?_
    exact packs_settle (layout.accounts_packFrom attached 0 elements out) fun l ↦ List.Perm.refl l

/-- Packed records hand their blocks over to whoever keeps the ledger. -/
theorem run_packNoting_ok {layout : RecordLayout} {attached : Bool} {records : Value}
    {ledger : Ledger} {out : Bytes} {addresses : List Nat} {after : Heap}
    (hcheck : layout.check = .ok ())
    (hpack : (layout.pack attached records).run ledger.heap = (.ok (out, addresses), after)) :
    (layout.packNoting attached records).run ledger =
      (.ok out, ⟨after, ledger.owned ++ addresses⟩) := by
  have hpacked : (Ledger.onHeap (layout.pack attached records)).run ledger =
      (.ok (out, addresses), ⟨after, ledger.owned⟩) := by
    rw [Ledger.onHeap, Action.run_within, hpack]
  rw [packNoting, Action.run_ofExcept_bind_ok hcheck, Action.run_bind_ok hpacked]
  rfl

/-- Records that are refused leave the noted blocks as they are. -/
theorem run_packNoting_error {layout : RecordLayout} {attached : Bool} {records : Value}
    {ledger : Ledger} {fault : Fault} {after : Heap} (hcheck : layout.check = .ok ())
    (hpack : (layout.pack attached records).run ledger.heap = (.error fault, after)) :
    (layout.packNoting attached records).run ledger = (.error fault, ⟨after, ledger.owned⟩) := by
  have hrefused : (Ledger.onHeap (layout.pack attached records)).run ledger =
      (.error fault, ⟨after, ledger.owned⟩) := by
    rw [Ledger.onHeap, Action.run_within, hpack]
  rw [packNoting, Action.run_ofExcept_bind_ok hcheck, Action.run_bind_error hrefused]

theorem accounts_packNoting (layout : RecordLayout) (attached : Bool) (records : Value) :
    Accounts (layout.packNoting attached records) := by
  have hcheck := layout.notMemory_check
  rcases hchecked : layout.check with fault | ⟨⟨⟩⟩
  · have hrefused (ledger : Ledger) :
        (layout.packNoting attached records).run ledger = (.error fault, ledger) := by
      rw [packNoting, Action.run_ofExcept_bind_error hchecked]
    rw [hchecked] at hcheck
    exact ⟨fun ledger ↦ by rw [hrefused]; exact Ledger.Tracks.refl ledger, fun ledger _ ↦ by
      rw [hrefused]; exact Outcome.notMemory_error_iff.2 (Outcome.notMemory_error_iff.1 hcheck)⟩
  · have hcases (ledger : Ledger) (hsound : ledger.heap.Sound) :
        ledger.Tracks ((layout.packNoting attached records).run ledger).2 ∧
          Outcome.NotMemory ((layout.packNoting attached records).run ledger).1 := by
      rcases layout.packs_pack attached records ledger.heap hsound with
        ⟨out, addresses, after, hrun, hchanged⟩ | ⟨fault, after, hrun, hchanged, hfault⟩
      · rw [run_packNoting_ok hchecked hrun]
        exact ⟨fun _ ↦ ⟨addresses, hchanged, rfl⟩, Outcome.notMemory_ok _⟩
      · rw [run_packNoting_error hchecked hrun]
        exact ⟨fun _ ↦ ⟨[], hchanged, (List.append_nil _).symm⟩,
          Outcome.notMemory_error_iff.2 hfault⟩
    exact ⟨fun ledger hsound ↦ (hcases ledger hsound).1 hsound,
      fun ledger hsound ↦ (hcases ledger hsound).2⟩

end RecordLayout

/-! ### Sequences -/

namespace Sequence

theorem accounts_placeText (value : Value) : Accounts (placeText value) := by
  unfold placeText
  split
  · exact accounts_pure _
  · exact (accounts_ofExcept (notMemory_textBytes _)).bind fun _ ↦ accounts_place _

theorem accounts_placeSequence {items : Value → Action Ledger Bytes}
    (hitems : ∀ value, Accounts (items value)) (value : Value) :
    Accounts (placeSequence items value) := by
  unfold placeSequence
  split
  · exact accounts_pure _
  · exact (hitems value).bind fun _ ↦ (accounts_place _).bind fun _ ↦
      (accounts_ofExcept (Buffer.notMemory_wordNumber _ _)).bind fun _ ↦ accounts_pure _

theorem accounts_encode (type : ElementType) (value : Value) : Accounts (encode type value) := by
  rcases helements : value.elements? with _ | values
  · have hrefused : encode type value = Action.refuse .operand := by
      rw [encode.eq_def]
      simp only [helements]
    rw [hrefused]
    exact accounts_refuse (by simp)
  · rw [encode.eq_def]
    simp only [helements]
    match type with
    | .number type => exact accounts_ofExcept (notMemory_encodeNumbers _ _ _)
    | .enum backing members =>
      exact accounts_ofExcept ((notMemory_resolveConstants _ _).bind fun _ ↦
        notMemory_encodeNumbers _ _ _)
    | .string => exact (Accounts.collect accounts_placeText _).bind fun _ ↦ accounts_pure _
    | .fixedString width =>
      exact accounts_ofExcept ((Outcome.NotMemory.mapM (notMemory_fixedPart width) _).bind fun _ ↦
        Outcome.notMemory_ok _)
    | .reference width => exact accounts_ofExcept (notMemory_encodeReferences _ _)
    | .vlen element =>
      refine Accounts.bind ?_ fun _ ↦ accounts_pure _
      exact .collect (accounts_placeSequence fun value ↦ accounts_encode element value) _
    | .compound members size => exact RecordLayout.accounts_packNoting _ _ _
    | .array element length => exact accounts_refuse (by simp)

theorem accounts_packArraysFrom (base : ElementType) (length size : Int) (number : Nat)
    (values : List Value) (out : Bytes) :
    Accounts (packArraysFrom base length size number values out) := by
  fun_induction packArraysFrom base length size number values out with
  | case1 => exact accounts_pure _
  | case2 number rest out ih => exact ih
  | case3 => exact accounts_refuse (by simp)
  | case4 => exact accounts_refuse (by simp)
  | case5 number value rest out _ values _ _ ih =>
    exact (accounts_encode base value).bind fun bytes ↦ ih bytes

theorem packs_packSequences (registry : Registry) (values : Value) (typeId : Int) :
    Packs (packSequences registry.catalogue values typeId) := by
  refine packs_ofExcept_bind (registry.notMemory_sequenceElement typeId) fun base ↦ ?_
  split
  · exact packs_refuse (by simp)
  · next elements _ =>
    refine packs_settle ?_ fun l ↦ List.reverse_perm l
    exact (Accounts.collect (accounts_placeSequence (accounts_encode base)) _).bind fun _ ↦
      accounts_pure _

theorem packs_packArrays (registry : Registry) (values : Value) (typeId : Int) :
    Packs (packArrays registry.catalogue values typeId) := by
  refine packs_ofExcept_bind (registry.notMemory_arrayElement typeId) fun (base, length) ↦ ?_
  dsimp only
  split
  · exact packs_refuse (by simp)
  · next elements _ =>
    refine packs_ofExcept_bind (Buffer.notMemory_zeroed _) fun out ↦ ?_
    exact packs_settle (accounts_packArraysFrom _ _ _ _ _ _) fun l ↦ List.reverse_perm l

theorem packs_packStrings (values : Value) : Packs (packStrings values) := by
  unfold packStrings
  split
  · exact packs_refuse (by simp)
  · next elements _ =>
    refine packs_settle ?_ fun l ↦ List.reverse_perm l
    exact (Accounts.collect accounts_placeText _).bind fun _ ↦ accounts_pure _

end Sequence

end Stowage
