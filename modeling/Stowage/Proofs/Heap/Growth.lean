import Stowage.Proofs.Heap.Operations
import Mathlib.Data.List.Nodup

/-!
# Heaps that grow and are released

A heap grows when blocks are added at its top and nothing else happens (`Grown`). Reads that were
granted before are granted afterwards and give the same bytes, and the added blocks are new: their
addresses differ from each other and from every address given out before.

`KeepsReads` says the same of a set of addresses and of any change of the heap. Releasing blocks
keeps the reads at the other live blocks, and so does writing to other blocks.
-/

set_option autoImplicit false

namespace Stowage.Heap

variable {before middle after heap : Heap} {added more : List Nat}

/-- The second heap is the first with live blocks added on top, at the given addresses in order. -/
structure Grown (before after : Heap) (added : List Nat) : Prop where
  /-- The heap is still sound. -/
  sound : after.Sound
  /-- The top does not fall. -/
  top_le : before.top ≤ after.top
  /-- The blocks that were added. -/
  blocks_eq : ∃ fresh : List Block, after.blocks = fresh ++ before.blocks ∧
    (fresh.map (·.start)).reverse = added ∧ ∀ b ∈ fresh, b.live = true ∧ before.top ≤ b.start

namespace Grown

theorem refl (hsound : heap.Sound) : heap.Grown heap [] where
  sound := hsound
  top_le := Nat.le_refl _
  blocks_eq := ⟨[], rfl, rfl, fun _ h ↦ absurd h List.not_mem_nil⟩

theorem trans (first : before.Grown middle added) (second : middle.Grown after more) :
    before.Grown after (added ++ more) where
  sound := second.sound
  top_le := Nat.le_trans first.top_le second.top_le
  blocks_eq := by
    obtain ⟨older, holder, hadded, holderLive⟩ := first.blocks_eq
    obtain ⟨newer, hnewer, hmore, hnewerLive⟩ := second.blocks_eq
    refine ⟨newer ++ older, ?_, ?_, fun b hb ↦ ?_⟩
    · rw [hnewer, holder, List.append_assoc]
    · rw [List.map_append, List.reverse_append, hadded, hmore]
    · rcases List.mem_append.1 hb with hb | hb
      · obtain ⟨hlive, htop⟩ := hnewerLive b hb
        exact ⟨hlive, Nat.le_trans first.top_le htop⟩
      · exact holderLive b hb

/-- One block more. -/
theorem extend (hsound : heap.Sound) {data : Bytes} (hdata : 0 < data.length) :
    heap.Grown (heap.extend data) [heap.top] where
  sound := hsound.extend hdata
  top_le := Nat.le_add_right _ _
  blocks_eq := by
    refine ⟨[⟨heap.top, data, true⟩], rfl, rfl, fun b hb ↦ ?_⟩
    obtain rfl := List.mem_singleton.1 hb
    exact ⟨rfl, Nat.le_refl _⟩

theorem place (hsound : heap.Sound) (bytes : Bytes) :
    heap.Grown (heap.extend (Bytes.padTo 1 bytes)) [heap.top] :=
  extend hsound (Bytes.length_padTo_one_pos bytes)

section

variable (h : before.Grown after added)

include h

theorem isLive_iff (address : Nat) :
    after.isLive address = true ↔ before.isLive address = true ∨ address ∈ added := by
  obtain ⟨fresh, hblocks, rfl, hfresh⟩ := h.blocks_eq
  simp only [isLive_natCast, hblocks, List.mem_append, List.mem_reverse, List.mem_map]
  constructor
  · rintro ⟨block, hmem | hmem, hlive, hstart⟩
    · exact .inr ⟨block, hmem, hstart⟩
    · exact .inl ⟨block, hmem, hlive, hstart⟩
  · rintro (⟨block, hmem, hlive, hstart⟩ | ⟨block, hmem, hstart⟩)
    · exact ⟨block, .inr hmem, hlive, hstart⟩
    · exact ⟨block, .inl hmem, (hfresh block hmem).1, hstart⟩

/-- An added block starts behind everything that was there. -/
theorem top_le_of_mem {address : Nat} (hmem : address ∈ added) : before.top ≤ address := by
  obtain ⟨fresh, _, rfl, hfresh⟩ := h.blocks_eq
  obtain ⟨block, hblock, rfl⟩ := List.mem_map.1 (List.mem_reverse.1 hmem)
  exact (hfresh block hblock).2

theorem lt_top_of_mem {address : Nat} (hmem : address ∈ added) : address < after.top := by
  obtain ⟨fresh, hblocks, rfl, _⟩ := h.blocks_eq
  obtain ⟨block, hblock, rfl⟩ := List.mem_map.1 (List.mem_reverse.1 hmem)
  exact h.sound.stacked.start_lt (hblocks ▸ List.mem_append_left _ hblock)

theorem nodup : added.Nodup := by
  obtain ⟨fresh, hblocks, rfl, _⟩ := h.blocks_eq
  have hstarts := h.sound.stacked.nodup_starts
  rw [hblocks, List.map_append] at hstarts
  exact List.nodup_reverse.2 (List.nodup_append.1 hstarts).1

/-- Below the old top, the same blocks are found. -/
theorem locate_eq {address : Int} (hlt : address < before.top) (count : Int) :
    after.locate address count = before.locate address count := by
  obtain ⟨fresh, hblocks, _, hfresh⟩ := h.blocks_eq
  have hnone : fresh.find? (fun block ↦ decide ((block.start : Int) ≤ address)) = none := by
    refine List.find?_eq_none.2 fun b hb ↦ ?_
    have htop := (hfresh b hb).2
    simp only [decide_eq_true_eq]
    omega
  have hfound : after.blockAt? address = before.blockAt? address := by
    rw [blockAt?, hblocks, List.find?_append, hnone]
    rfl
  rw [locate, locate, hfound]

/-- An access of no bytes stays granted: should another block be found, then an added one, and these
are live. -/
theorem exists_locate_zero (hsound : before.Sound) {address : Nat} {block : Block}
    (hbefore : before.locate address 0 = .ok block) :
    ∃ found, after.locate address 0 = .ok found := by
  obtain ⟨fresh, hblocks, _, hfresh⟩ := h.blocks_eq
  obtain ⟨hat, hlive, hstop⟩ := locate_eq_ok_iff.1 hbefore
  rcases hfind : fresh.find? (fun block ↦ decide ((block.start : Int) ≤ address)) with _ | found
  · have hfound : after.blockAt? address = some block := by
      rw [blockAt?, hblocks, List.find?_append, hfind]
      exact hat
    exact ⟨block, locate_eq_ok_iff.2 ⟨hfound, hlive, hstop⟩⟩
  · obtain ⟨hfoundLive, htop⟩ := hfresh found (List.mem_of_find?_eq_some hfind)
    have hfoundStart : (found.start : Int) ≤ address := by simpa using List.find?_some hfind
    have hfound : after.blockAt? address = some found := by
      rw [blockAt?, hblocks, List.find?_append, hfind]
      rfl
    have hend := hsound.stacked.stop_le (blockAt?_eq_some hat).1
    refine ⟨found, locate_eq_ok_iff.2 ⟨hfound, hfoundLive, ?_⟩⟩
    unfold Block.stop
    omega

end

end Grown

/-! ### Reads that a change keeps -/

/-- Reads at the addresses that were granted before are granted afterwards, with the same bytes. -/
structure KeepsReads (addresses : Nat → Prop) (before after : Heap) : Prop where
  /-- Reads of some bytes. -/
  read : ∀ address count : Nat, addresses address → ∀ bytes,
    before.read address count = .ok bytes → after.read address count = .ok bytes
  /-- Reads of strings. -/
  readString : ∀ address : Nat, addresses address → ∀ bytes,
    before.readString address = .ok bytes → after.readString address = .ok bytes

/-- Growing keeps all reads. -/
theorem Grown.keepsReads (h : before.Grown after added) (hsound : before.Sound) :
    KeepsReads (fun _ ↦ True) before after where
  read := by
    intro address count _ bytes hread
    obtain ⟨block, hlocate, hbytes⟩ := read_eq_ok hread
    obtain ⟨hmem, _, hstart, hstop⟩ := locate_eq_ok hlocate
    have hend := hsound.stacked.stop_le hmem
    have hneg : ¬ (count : Int) < 0 := by omega
    by_cases hlt : address < before.top
    · have hsame := h.locate_eq (by omega : (address : Int) < before.top) count
      simp only [Heap.read, hsame, hlocate, h.sound.isOpen, Bool.false_eq_true, if_false, hneg,
        Int.toNat_natCast, hbytes]
    · -- a read at the very end of the memory is a read of no bytes
      obtain rfl : count = 0 := by omega
      obtain ⟨found, hfound⟩ := h.exists_locate_zero hsound hlocate
      have hzero : ¬ ((0 : Nat) : Int) < 0 := by omega
      simp only [Heap.read, Int.natCast_zero, hfound, h.sound.isOpen, Bool.false_eq_true, if_false,
        Int.lt_irrefl, Int.toNat_zero, List.take_zero, hbytes]
  readString := by
    intro address _ bytes hread
    obtain ⟨block, hlocate, hzero, hbytes⟩ := readString_eq_ok hread
    obtain ⟨hmem, _, hstart, hstop⟩ := locate_eq_ok hlocate
    have hend := hsound.stacked.stop_le hmem
    have hlt : (address : Int) < before.top := by
      by_contra hge
      unfold Block.stop at hstop hend
      rw [List.drop_of_length_le (by omega)] at hzero
      exact absurd hzero (by simp)
    have hsame := h.locate_eq hlt 0
    simp only [Heap.readString, hsame, hlocate, h.sound.isOpen, Bool.false_eq_true, if_false,
      hzero, if_true, hbytes]

/-- A change that leaves blocks as they are keeps the reads at their addresses. -/
theorem keepsReads_of_blocks {addresses : Nat → Prop} (hbefore : before.Sound)
    (hafter : after.Sound)
    (h : ∀ address, addresses address →
      ∃ block ∈ before.blocks, block ∈ after.blocks ∧ block.live = true ∧ block.start = address) :
    KeepsReads addresses before after where
  read := by
    intro address count haddress bytes hread
    obtain ⟨block, hmem, hmem', hlive, rfl⟩ := h address haddress
    obtain ⟨found, hlocate, rfl⟩ := read_eq_ok hread
    have hfits : count ≤ block.data.length := by
      obtain ⟨hfound, _, hstop⟩ := locate_eq_ok_iff.1 hlocate
      have hpos := hbefore.stacked.start_lt_stop hmem
      have hat := hbefore.blockAt?_eq_of_mem hmem (Int.le_refl _) (by omega)
      obtain rfl := Option.some.inj (hat.symm.trans hfound)
      unfold Block.stop at hstop
      omega
    have hsame := read_start hbefore hmem hlive hfits
    rw [hread] at hsame
    rw [Except.ok.inj hsame]
    exact read_start hafter hmem' hlive hfits
  readString := by
    intro address haddress bytes hread
    obtain ⟨block, hmem, hmem', hlive, rfl⟩ := h address haddress
    obtain ⟨found, hlocate, hzero, rfl⟩ := readString_eq_ok hread
    have hsame := hbefore.locate_start hmem hlive (Nat.zero_le _)
    rw [Int.natCast_zero] at hsame
    obtain rfl := Except.ok.inj (hlocate.symm.trans hsame)
    rw [Int.sub_self, Int.toNat_zero, List.drop_zero] at hzero ⊢
    exact readString_start hafter hmem' hlive hzero

/-- Releasing blocks keeps the reads at the other live ones. -/
theorem keepsReads_release (hsound : heap.Sound) (freed : List Nat) :
    KeepsReads (fun a ↦ heap.isLive a = true ∧ a ∉ freed) heap (heap.release freed) := by
  refine keepsReads_of_blocks hsound (hsound.release freed) fun address haddress ↦ ?_
  obtain ⟨hlive, hkept⟩ := haddress
  obtain ⟨block, hmem, hblockLive, rfl⟩ := (isLive_natCast address).1 hlive
  refine ⟨block, hmem, ?_, hblockLive, rfl⟩
  exact List.mem_map.2 ⟨block, hmem, Block.releaseIf_of_not_mem hkept⟩

theorem KeepsReads.mono {addresses fewer : Nat → Prop} (h : KeepsReads addresses before after)
    (hfewer : ∀ a, fewer a → addresses a) : KeepsReads fewer before after where
  read := fun address count haddress ↦ h.read address count (hfewer address haddress)
  readString := fun address haddress ↦ h.readString address (hfewer address haddress)

theorem KeepsReads.trans {addresses : Nat → Prop} (first : KeepsReads addresses before middle)
    (second : KeepsReads addresses middle after) : KeepsReads addresses before after where
  read := fun address count haddress bytes h ↦
    second.read address count haddress bytes (first.read address count haddress bytes h)
  readString := fun address haddress bytes h ↦
    second.readString address haddress bytes (first.readString address haddress bytes h)

/-! ### What was placed -/

/-- Addresses below this fit in the eight bytes that an address is stored in. -/
def addressLimit : Nat := Nat.pow 2 64

/-- A block at the top does not have the null address. -/
theorem Sound.top_ne_null (hsound : heap.Sound) : heap.top ≠ nullAddress := by
  have hle := hsound.stacked.alignment_le
  unfold alignment at hle
  unfold nullAddress
  omega

/-- The stored address of a placed block leads to it, as long as addresses fit. -/
theorem toNat_top_of_place {bytes : Bytes}
    (hlimit : (heap.extend (Bytes.padTo 1 bytes)).top ≤ addressLimit) :
    Bytes.toNat (Bytes.ofNat addressSize heap.top) = heap.top := by
  have hpos := footprint_pos (Bytes.padTo 1 bytes).length
  change heap.top + footprint (Bytes.padTo 1 bytes).length ≤ 2 ^ 64 at hlimit
  refine Bytes.ofNat_eq_of_lt ?_
  change heap.top < 256 ^ 8
  omega

/-- Placed bytes are read back. -/
theorem read_place (hsound : heap.Sound) (bytes : Bytes) :
    (heap.extend (Bytes.padTo 1 bytes)).read heap.top bytes.length = .ok bytes := by
  have hread := read_start (hsound.extend (Bytes.length_padTo_one_pos bytes))
    (List.mem_cons_self : (⟨heap.top, Bytes.padTo 1 bytes, true⟩ : Block) ∈ _ :: heap.blocks) rfl
    (by rw [Bytes.length_padTo]; omega : bytes.length ≤ (Bytes.padTo 1 bytes).length)
  rw [Bytes.take_padTo] at hread
  exact hread

/-- A placed string is read back up to its first zero byte. -/
theorem readString_place (hsound : heap.Sound) (text : Bytes) :
    (heap.extend (Bytes.padTo 1 (text ++ [0]))).readString heap.top =
      .ok (Bytes.untilNul text) := by
  have hdata : Bytes.padTo 1 (text ++ [0]) = text ++ [0] :=
    Bytes.padTo_of_le (by rw [List.length_append, List.length_singleton]; omega)
  have hread := readString_start (hsound.extend (Bytes.length_padTo_one_pos (text ++ [0])))
    (List.mem_cons_self :
      (⟨heap.top, Bytes.padTo 1 (text ++ [0]), true⟩ : Block) ∈ _ :: heap.blocks)
    rfl (by rw [hdata]; simp)
  dsimp only at hread
  rw [hread, hdata, Bytes.untilNul_append_zero]

end Stowage.Heap
