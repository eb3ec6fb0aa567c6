import Stowage.Ledger
import Stowage.Proofs.Heap.Change
import Stowage.Proofs.Outcome

/-!
# What a ledger knows

While values are packed, the ledger notes exactly the blocks that were added and are live
(`Ledger.Tracks`), and on a sound heap no step is refused by the memory (`Ledger.Accounts`). So a
settled packing hands over the blocks it added when it succeeds, and has freed each of them once
when it is refused, with the fault that stopped it (`settle_cases`).
-/

set_option autoImplicit false

namespace Stowage

open Stowage.Action (Preserves)

namespace Heap.Changed

variable {before middle after : Heap} {freed added added' : List Nat}

/-- Freeing what is not there yet frees nothing. -/
theorem of_top_le (h : before.Changed after freed added) (hsound : before.Sound)
    (hfreed : ∀ a ∈ freed, before.top ≤ a) : before.Changed after [] added where
  sound := h.sound
  top_le := h.top_le
  blocks_eq := by
    obtain ⟨fresh, hblocks, htop, hadded⟩ := h.blocks_eq
    refine ⟨fresh, ?_, htop, hadded⟩
    rw [hblocks]
    congr 1
    refine List.map_congr_left fun b hb ↦ ?_
    have hlt := hsound.stacked.start_lt hb
    rw [Block.releaseIf_nil]
    exact Block.releaseIf_of_not_mem fun hmem ↦ by
      have hle := hfreed _ hmem
      omega

/-- Two changes that free nothing. -/
theorem trans_nil (first : before.Changed middle [] added)
    (second : middle.Changed after [] added') :
    before.Changed after [] (added ++ added') := by
  have h := first.trans second
  simpa using h

/-- Freeing again what was added leaves nothing. -/
theorem release_added (h : before.Changed after [] added) (hsound : before.Sound)
    {order : List Nat} (horder : ∀ a, a ∈ order ↔ a ∈ added) :
    before.Changed (after.release order) [] [] := by
  have hboth := h.trans (Changed.release h.sound order)
  have hnone : (added.filter fun a ↦ decide (a ∉ order)) = [] := by
    refine List.filter_eq_nil_iff.2 fun a ha ↦ ?_
    simpa using (horder a).2 ha
  rw [hnone] at hboth
  exact hboth.of_top_le hsound fun a ha ↦ h.top_le_of_mem ((horder a).1 ha)

end Heap.Changed

namespace Ledger

/-- The heap is changed only by adding blocks, and the live ones of them are noted. -/
def Tracks (before after : Ledger) : Prop :=
  before.heap.Sound → ∃ added, before.heap.Changed after.heap [] added ∧
    after.owned = before.owned ++ added

namespace Tracks

theorem refl (ledger : Ledger) : ledger.Tracks ledger :=
  fun hsound ↦ ⟨[], .refl hsound, (List.append_nil _).symm⟩

theorem trans (before middle after : Ledger) (first : before.Tracks middle)
    (second : middle.Tracks after) : before.Tracks after := by
  intro hsound
  obtain ⟨added, hchanged, howned⟩ := first hsound
  obtain ⟨added', hchanged', howned'⟩ := second hchanged.sound
  refine ⟨added ++ added', hchanged.trans_nil hchanged', ?_⟩
  rw [howned', howned, List.append_assoc]

end Tracks

variable {ledger : Ledger}

/-- Bytes are placed in a block of their own, which is noted; its address has to fit a word. -/
theorem place_eq (hsound : ledger.heap.Sound) (bytes : Bytes) :
    (place bytes).run ledger = (Buffer.wordNumber addressSize ledger.heap.top,
      ⟨ledger.heap.extend (Bytes.padTo 1 bytes), ledger.owned ++ [ledger.heap.top]⟩) := by
  have hallocate := Heap.allocate_eq hsound bytes.length
  have hwrite := Heap.write_extend hsound bytes
  have hfirst : (onHeap (Heap.allocate bytes.length)).run ledger =
      (.ok ledger.heap.top,
        ⟨ledger.heap.extend (Bytes.zeros (max bytes.length 1)), ledger.owned⟩) := by
    rw [onHeap, Action.run_within, hallocate]
  have hsecond : (onHeap (Heap.write ledger.heap.top bytes)).run
      ⟨ledger.heap.extend (Bytes.zeros (max bytes.length 1)), ledger.owned ++ [ledger.heap.top]⟩ =
      (.ok (), ⟨ledger.heap.extend (Bytes.padTo 1 bytes), ledger.owned ++ [ledger.heap.top]⟩) := by
    rw [onHeap, Action.run_within, hwrite]
  have hnoted : (note [ledger.heap.top]).run
      ⟨ledger.heap.extend (Bytes.zeros (max bytes.length 1)), ledger.owned⟩ = (.ok (),
        ⟨ledger.heap.extend (Bytes.zeros (max bytes.length 1)),
          ledger.owned ++ [ledger.heap.top]⟩) :=
    rfl
  rw [place, Action.run_bind_ok hfirst, Action.run_bind_ok hnoted, Action.run_bind_ok hsecond,
    Action.run_ofExcept]

/-- On a ledger with a sound heap, whatever becomes of the action: it adds blocks at most and notes
the live ones of them, and it is not refused by the memory. -/
structure Accounts {α : Type} (x : Action Ledger α) : Prop where
  /-- Blocks that were added are noted. -/
  tracks : Preserves Tracks x
  /-- The memory does what it is asked to. -/
  notMemory : ∀ ledger : Ledger, ledger.heap.Sound → Outcome.NotMemory (x.run ledger).1

section Accounts

variable {α β : Type}

theorem accounts_ofExcept {outcome : Except Fault α} (h : Outcome.NotMemory outcome) :
    Accounts (Action.ofExcept outcome) where
  tracks := Action.preserves_ofExcept Tracks.refl outcome
  notMemory := fun _ _ ↦ h

theorem accounts_pure (a : α) : Accounts (pure a) := accounts_ofExcept (Outcome.notMemory_ok a)

theorem accounts_refuse {fault : Fault} (h : ∀ cause, fault ≠ .memory cause) :
    Accounts (Action.refuse fault : Action Ledger α) :=
  accounts_ofExcept (Outcome.notMemory_error_iff.2 h)

theorem Accounts.bind {x : Action Ledger α} {f : α → Action Ledger β} (hx : Accounts x)
    (hf : ∀ a, Accounts (f a)) : Accounts (x >>= f) where
  tracks := hx.tracks.bind Tracks.trans fun a ↦ (hf a).tracks
  notMemory := by
    intro ledger hsound
    have hfirst := hx.notMemory ledger hsound
    obtain ⟨_, hchanged, _⟩ := hx.tracks ledger hsound
    rw [Action.run_bind]
    rcases hrun : x.run ledger with ⟨fault | a, middle⟩
    · rw [hrun] at hfirst
      exact Outcome.notMemory_error_iff.2 (Outcome.notMemory_error_iff.1 hfirst)
    · rw [hrun] at hchanged
      exact (hf a).notMemory middle hchanged.sound

theorem Accounts.collect {f : α → Action Ledger β} (hf : ∀ a, Accounts (f a)) (as : List α) :
    Accounts (Action.collect f as) := by
  induction as with
  | nil => exact accounts_pure []
  | cons a rest ih => exact (hf a).bind fun _ ↦ ih.bind fun _ ↦ accounts_pure _

theorem accounts_place (bytes : Bytes) : Accounts (place bytes) where
  tracks := by
    intro ledger hsound
    rw [place_eq hsound]
    exact ⟨_, (Heap.Grown.place hsound bytes).changed, rfl⟩
  notMemory := by
    intro ledger hsound
    rw [place_eq hsound]
    exact Buffer.notMemory_wordNumber _ _

end Accounts

section Settle

variable {α : Type} {packing : Action Ledger α} {order : List Nat → List Nat} {heap : Heap}

theorem run_settle_ok {a : α} (h : packing.run ⟨heap, []⟩ = (.ok a, ledger)) :
    (settle order packing).run heap = (.ok (a, ledger.owned), ledger.heap) := by
  simp only [Action.run] at h ⊢
  simp only [settle, h]

/-- A settled packing succeeds only when the packing does. -/
theorem run_settle_eq_ok {a : α} {addresses : List Nat} {after : Heap}
    (h : (settle order packing).run heap = (.ok (a, addresses), after)) :
    packing.run ⟨heap, []⟩ = (.ok a, ⟨after, addresses⟩) := by
  rcases hrun : packing.run ⟨heap, []⟩ with ⟨fault | b, ledger⟩
  · simp only [Action.run] at h hrun
    simp only [settle, hrun] at h
    split at h <;> exact absurd (Prod.mk.inj h).1 (by simp)
  · rw [run_settle_ok hrun] at h
    obtain ⟨hresult, rfl⟩ := Prod.mk.inj h
    obtain ⟨rfl, rfl⟩ := Prod.mk.inj (Except.ok.inj hresult)
    rfl

theorem run_settle_error {fault : Fault} {after : Heap}
    (h : packing.run ⟨heap, []⟩ = (.error fault, ledger))
    (hfreed : (Heap.freeAll (order ledger.owned)).run ledger.heap = (.ok (), after)) :
    (settle order packing).run heap = (.error fault, after) := by
  simp only [Action.run] at h hfreed ⊢
  simp only [settle, h, hfreed]

/-- Assumes: a packing that notes what it adds, and an order that keeps all addresses. A settled
packing hands over the blocks it added; or it has freed each of them, none twice, and reports the
fault of the packing. -/
theorem settle_cases (hpacking : Preserves Tracks packing) (horder : ∀ l, (order l).Perm l)
    (hsound : heap.Sound) :
    (∃ a ledger, packing.run ⟨heap, []⟩ = (.ok a, ledger) ∧
      (settle order packing).run heap = (.ok (a, ledger.owned), ledger.heap) ∧
        heap.Changed ledger.heap [] ledger.owned) ∨
    (∃ fault ledger after, packing.run ⟨heap, []⟩ = (.error fault, ledger) ∧
      (settle order packing).run heap = (.error fault, after) ∧
        (order ledger.owned).Nodup ∧
        (Heap.freeAll (order ledger.owned)).run ledger.heap = (.ok (), after) ∧
        heap.Changed after [] []) := by
  obtain ⟨added, hchanged, howned⟩ := hpacking ⟨heap, []⟩ hsound
  rw [List.nil_append] at howned
  rcases hrun : packing.run ⟨heap, []⟩ with ⟨fault | a, ledger⟩
  · right
    rw [hrun] at hchanged howned
    dsimp only at hchanged howned
    have hnodup : (order ledger.owned).Nodup := (horder _).nodup_iff.2 (howned ▸ hchanged.nodup)
    have hlive : ∀ a ∈ order ledger.owned, ledger.heap.isLive a = true := fun a ha ↦
      hchanged.holds_added.isLive a (howned ▸ (horder _).mem_iff.1 ha)
    have hfreed := Heap.freeAll_eq hchanged.sound hnodup hlive
    refine ⟨fault, ledger, _, rfl, run_settle_error hrun hfreed, hnodup, hfreed, ?_⟩
    refine hchanged.release_added hsound fun a ↦ ?_
    rw [← howned]
    exact (horder _).mem_iff
  · left
    rw [hrun] at hchanged howned
    exact ⟨a, ledger, rfl, run_settle_ok hrun, howned ▸ hchanged⟩

end Settle

end Ledger

end Stowage
