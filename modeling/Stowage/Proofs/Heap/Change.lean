import Stowage.Proofs.Heap.Growth

/-!
# How the heap changes

Everything the library does to its heap, apart from writes to memory, frees some blocks and adds
others on top (`Changed`). Changes one after another are one change, so what is live at the end of a
run is known from what was freed and what was added, and blocks that were not freed are as they
were.
-/

set_option autoImplicit false

namespace Stowage.Heap

/-! ### Blocks that are held -/

/-- Different live blocks. -/
structure Holds (heap : Heap) (blocks : List Nat) : Prop where
  /-- No address occurs twice. -/
  nodup : blocks.Nodup
  /-- Every address is the start of a live block. -/
  isLive : ∀ a ∈ blocks, heap.isLive a = true

namespace Holds

variable {heap : Heap} {first second : List Nat}

theorem nil (heap : Heap) : heap.Holds [] := ⟨.nil, fun _ h ↦ absurd h List.not_mem_nil⟩

theorem left (h : heap.Holds (first ++ second)) : heap.Holds first where
  nodup := (List.nodup_append.1 h.nodup).1
  isLive := fun a ha ↦ h.isLive a (List.mem_append_left _ ha)

/-- Releasing some blocks leaves the others. -/
theorem right_release (h : heap.Holds (first ++ second)) : (heap.release first).Holds second where
  nodup := (List.nodup_append.1 h.nodup).2.1
  isLive := fun a ha ↦ isLive_release.2 ⟨h.isLive a (List.mem_append_right _ ha),
    fun hfirst ↦ (List.nodup_append.1 h.nodup).2.2 a hfirst a ha rfl⟩

end Holds

/-! ### Live blocks -/

/-- The addresses of the live blocks among the given ones, the last block first. -/
def liveStarts (blocks : List Block) : List Nat := (blocks.filter (·.live)).map (·.start)

theorem mem_liveStarts {blocks : List Block} {address : Nat} :
    address ∈ liveStarts blocks ↔ ∃ b ∈ blocks, b.live = true ∧ b.start = address := by
  simp [liveStarts, and_assoc]

theorem liveStarts_append (first second : List Block) :
    liveStarts (first ++ second) = liveStarts first ++ liveStarts second := by
  simp [liveStarts]

/-- Freeing blocks takes their addresses out. -/
theorem liveStarts_release (blocks : List Block) (freed : List Nat) :
    liveStarts (blocks.map (Block.releaseIf freed)) =
      (liveStarts blocks).filter fun a ↦ decide (a ∉ freed) := by
  induction blocks with
  | nil => rfl
  | cons block rest ih =>
    unfold liveStarts at ih ⊢
    by_cases hfreed : block.start ∈ freed
    · have hdead : (block.releaseIf freed).live = false := by
        rw [Block.releaseIf_of_mem hfreed, Block.release_live]
      rw [List.map_cons, List.filter_cons_of_neg (by simp [hdead]), ih]
      by_cases hlive : block.live = true
      · rw [List.filter_cons_of_pos hlive, List.map_cons,
          List.filter_cons_of_neg (by simpa using hfreed)]
      · rw [List.filter_cons_of_neg hlive]
    · rw [List.map_cons, Block.releaseIf_of_not_mem hfreed]
      by_cases hlive : block.live = true
      · rw [List.filter_cons_of_pos hlive, List.filter_cons_of_pos hlive,
          List.map_cons, List.map_cons,
          List.filter_cons_of_pos (by simpa using hfreed), ih]
      · rw [List.filter_cons_of_neg hlive, List.filter_cons_of_neg hlive, ih]

theorem nodup_liveStarts {top : Nat} {blocks : List Block} (h : Stacked top blocks) :
    (liveStarts blocks).Nodup := by
  refine h.nodup_starts.sublist ?_
  exact List.filter_sublist.map _

/-! ### Changes -/

/-- The second heap is the first with some blocks freed and others added on top; those of them that
are live are at the given addresses in order. -/
structure Changed (before after : Heap) (freed added : List Nat) : Prop where
  /-- The heap is still sound. -/
  sound : after.Sound
  /-- The top does not fall. -/
  top_le : before.top ≤ after.top
  /-- What became of the blocks. -/
  blocks_eq : ∃ fresh : List Block,
    after.blocks = fresh ++ before.blocks.map (Block.releaseIf freed) ∧
    (∀ b ∈ fresh, before.top ≤ b.start) ∧ (liveStarts fresh).reverse = added

variable {heap before middle after : Heap} {freed freed' added added' : List Nat}

theorem Grown.changed (h : before.Grown after added) : before.Changed after [] added where
  sound := h.sound
  top_le := h.top_le
  blocks_eq := by
    obtain ⟨fresh, hblocks, hadded, hfresh⟩ := h.blocks_eq
    have hid : Block.releaseIf [] = id := funext Block.releaseIf_nil
    have hall : fresh.filter (·.live) = fresh :=
      List.filter_eq_self.2 fun b hb ↦ (hfresh b hb).1
    refine ⟨fresh, ?_, fun b hb ↦ (hfresh b hb).2, ?_⟩
    · rw [hblocks, hid, List.map_id]
    · rw [liveStarts, hall, hadded]

namespace Changed

theorem refl (hsound : heap.Sound) : heap.Changed heap [] [] := (Grown.refl hsound).changed

/-- Some blocks are freed. -/
theorem release (hsound : heap.Sound) (freed : List Nat) :
    heap.Changed (heap.release freed) freed [] where
  sound := hsound.release freed
  top_le := Nat.le_refl _
  blocks_eq := ⟨[], rfl, fun _ h ↦ absurd h List.not_mem_nil, rfl⟩

/-- Of what a first change added, a second one may free something. -/
theorem trans (first : before.Changed middle freed added)
    (second : middle.Changed after freed' added') :
    before.Changed after (freed ++ freed')
      ((added.filter fun a ↦ decide (a ∉ freed')) ++ added') where
  sound := second.sound
  top_le := Nat.le_trans first.top_le second.top_le
  blocks_eq := by
    obtain ⟨older, holder, holderTop, rfl⟩ := first.blocks_eq
    obtain ⟨newer, hnewer, hnewerTop, rfl⟩ := second.blocks_eq
    refine ⟨newer ++ older.map (Block.releaseIf freed'), ?_, fun b hb ↦ ?_, ?_⟩
    · rw [hnewer, holder, List.map_append, List.map_map, List.append_assoc]
      congr 2
      exact List.map_congr_left fun b _ ↦ Block.releaseIf_releaseIf freed freed' b
    · rcases List.mem_append.1 hb with hb | hb
      · exact Nat.le_trans first.top_le (hnewerTop b hb)
      · obtain ⟨old, hold, rfl⟩ := List.mem_map.1 hb
        rw [Block.releaseIf_start]
        exact holderTop old hold
    · rw [liveStarts_append, liveStarts_release, List.reverse_append, List.filter_reverse]

section

variable (h : before.Changed after freed added)

include h

theorem isLive_iff (address : Nat) :
    after.isLive address = true ↔
      (before.isLive address = true ∧ address ∉ freed) ∨ address ∈ added := by
  obtain ⟨fresh, hblocks, _, rfl⟩ := h.blocks_eq
  have hold : (before.release freed).isLive address = true ↔
      before.isLive address = true ∧ address ∉ freed := isLive_release
  rw [isLive_natCast] at hold ⊢
  rw [hblocks, List.mem_reverse, mem_liveStarts, ← hold]
  simp only [Heap.release, List.mem_append, or_and_right, exists_or]
  exact or_comm

/-- An added block starts behind everything that was there. -/
theorem top_le_of_mem {address : Nat} (hmem : address ∈ added) : before.top ≤ address := by
  obtain ⟨fresh, _, htop, rfl⟩ := h.blocks_eq
  obtain ⟨block, hblock, _, rfl⟩ := mem_liveStarts.1 (List.mem_reverse.1 hmem)
  exact htop block hblock

theorem nodup : added.Nodup := by
  obtain ⟨fresh, hblocks, _, rfl⟩ := h.blocks_eq
  have hlive := nodup_liveStarts h.sound.stacked
  rw [hblocks, liveStarts_append] at hlive
  exact List.nodup_reverse.2 (List.nodup_append.1 hlive).1

/-- A block that is not freed stays as it is. -/
theorem mem_of_not_mem {block : Block} (hmem : block ∈ before.blocks)
    (hkept : block.start ∉ freed) : block ∈ after.blocks := by
  obtain ⟨fresh, hblocks, _, _⟩ := h.blocks_eq
  rw [hblocks]
  refine List.mem_append_right _ (List.mem_map.2 ⟨block, hmem, ?_⟩)
  exact Block.releaseIf_of_not_mem hkept

omit h in
/-- A change that adds and frees nothing leaves the live blocks as they are. -/
theorem liveBlocks_eq (h : before.Changed after [] []) : after.liveBlocks = before.liveBlocks := by
  obtain ⟨fresh, hblocks, _, hadded⟩ := h.blocks_eq
  have hnone : fresh.filter (·.live) = [] := by
    simpa [liveStarts] using hadded
  have hid : Block.releaseIf [] = id := funext Block.releaseIf_nil
  rw [liveBlocks, hblocks, List.filter_append, hnone, hid, List.map_id]
  rfl

/-- The reads at blocks that are not freed stay as they are. -/
theorem keepsReads (hsound : before.Sound) :
    KeepsReads (fun a ↦ before.isLive a = true ∧ a ∉ freed) before after := by
  refine keepsReads_of_blocks hsound h.sound fun address haddress ↦ ?_
  obtain ⟨hlive, hkept⟩ := haddress
  obtain ⟨block, hmem, hblockLive, rfl⟩ := (isLive_natCast address).1 hlive
  exact ⟨block, hmem, h.mem_of_not_mem hmem hkept, hblockLive, rfl⟩

/-- Blocks that are not freed stay. -/
theorem holds {blocks : List Nat} (hholds : before.Holds blocks)
    (hkept : ∀ a ∈ blocks, a ∉ freed) : after.Holds blocks where
  nodup := hholds.nodup
  isLive := fun a ha ↦ (h.isLive_iff a).2 (.inl ⟨hholds.isLive a ha, hkept a ha⟩)

/-- The added blocks are there. -/
theorem holds_added : after.Holds added where
  nodup := h.nodup
  isLive := fun a ha ↦ (h.isLive_iff a).2 (.inr ha)

/-- What can be read below the old top could be read before. -/
theorem read_of_read {address count : Nat} (hlt : address < before.top) {bytes : Bytes}
    (hread : after.read address count = .ok bytes) (hsound : before.Sound) :
    before.read address count = .ok bytes := by
  obtain ⟨fresh, hblocks, htop, _⟩ := h.blocks_eq
  obtain ⟨block, hlocate, rfl⟩ := read_eq_ok hread
  obtain ⟨hfound, hlive, hstop⟩ := locate_eq_ok_iff.1 hlocate
  have hnone : fresh.find? (fun block ↦ decide ((block.start : Int) ≤ address)) = none := by
    refine List.find?_eq_none.2 fun b hb ↦ ?_
    have hb := htop b hb
    simp only [decide_eq_true_eq]
    omega
  rw [blockAt?, hblocks, List.find?_append, hnone, Option.none_or, List.find?_map,
    Option.map_eq_some_iff] at hfound
  obtain ⟨old, hold, rfl⟩ := hfound
  have hkept := ((Block.releaseIf_live freed old).1 hlive)
  have hsame := Block.releaseIf_of_not_mem hkept.2
  have hat : before.blockAt? address = some old := by
    rw [blockAt?, ← hold]
    congr 1
    funext b
    rw [Function.comp_apply, Block.releaseIf_start]
  rw [hsame] at hstop
  have hbefore := locate_eq_ok_iff.2 ⟨hat, hkept.1, hstop⟩
  have hneg : ¬ (count : Int) < 0 := by omega
  simp only [Heap.read, hbefore, hsound.isOpen, Bool.false_eq_true, if_false, hneg,
    Int.toNat_natCast, hsame]

end

end Changed

/-- A heap that grows keeps its blocks. -/
theorem Grown.mem_of_mem (h : before.Grown after added) {block : Block}
    (hmem : block ∈ before.blocks) : block ∈ after.blocks :=
  h.changed.mem_of_not_mem hmem List.not_mem_nil

/-- A heap that grows holds what it held. -/
theorem Grown.holds (h : before.Grown after added) {blocks : List Nat}
    (hholds : before.Holds blocks) : after.Holds blocks :=
  h.changed.holds hholds fun _ _ ↦ List.not_mem_nil

/-- Blocks are added and others freed after that. -/
theorem Grown.release (h : before.Grown middle added) (hsound : before.Sound)
    (hholds : before.Holds freed) : before.Changed (middle.release freed) freed added := by
  have hboth := h.changed.trans (Changed.release h.sound freed)
  have hkept : (added.filter fun a ↦ decide (a ∉ freed)) = added := by
    refine List.filter_eq_self.2 fun a ha ↦ decide_eq_true fun hmem ↦ ?_
    obtain ⟨block, hblock, _, rfl⟩ := (isLive_natCast a).1 (hholds.isLive a hmem)
    have hlt := hsound.stacked.start_lt hblock
    have hle := h.top_le_of_mem ha
    omega
  rw [hkept, List.append_nil, List.nil_append] at hboth
  exact hboth

/-! ### Heaps that evolve -/

/-- The heap changes by freeing and adding blocks only. -/
def Evolves (before after : Heap) : Prop :=
  before.Sound → ∃ freed added, before.Changed after freed added

namespace Evolves

theorem refl (heap : Heap) : heap.Evolves heap := fun hsound ↦ ⟨[], [], .refl hsound⟩

theorem trans (before middle after : Heap) (first : before.Evolves middle)
    (second : middle.Evolves after) : before.Evolves after := by
  intro hsound
  obtain ⟨_, _, hfirst⟩ := first hsound
  obtain ⟨_, _, hsecond⟩ := second hfirst.sound
  exact ⟨_, _, hfirst.trans hsecond⟩

end Evolves

open Stowage.Action (Preserves)

theorem evolves_allocate (count : Int) : Preserves Evolves (allocate count) := by
  intro heap hsound
  by_cases hneg : count < 0
  · rw [allocate_negative hneg]
    exact ⟨[], [], .refl hsound⟩
  · obtain ⟨n, rfl⟩ := Int.eq_ofNat_of_zero_le (by omega : 0 ≤ count)
    rw [allocate_eq hsound]
    refine ⟨[], _, (Grown.extend hsound ?_).changed⟩
    rw [Bytes.length_zeros]
    omega

theorem evolves_free (address : Int) : Preserves Evolves (free address) := by
  intro heap hsound
  by_cases hlive : heap.isLive address = true
  · obtain ⟨block, _, _, rfl⟩ := (isLive_iff address).1 hlive
    rw [free_eq hsound hlive]
    exact ⟨_, [], .release hsound _⟩
  · rw [free_error hlive]
    exact ⟨[], [], .refl hsound⟩

theorem evolves_place (bytes : Bytes) : Preserves Evolves (place bytes) := by
  intro heap hsound
  rw [place_eq hsound]
  exact ⟨[], _, (Grown.place hsound bytes).changed⟩

end Stowage.Heap
