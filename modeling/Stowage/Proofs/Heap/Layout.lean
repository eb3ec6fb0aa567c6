import Stowage.Heap
import Mathlib.Data.List.Pairwise

/-!
# Where blocks lie

Blocks lie one behind the other: `Stacked` says that the space of every block starts where the space
of the block before it ends, and `Heap.Sound` adds that the memory is there and large enough. From
this follows what a look-up can find. An address inside a block leads to that block and to no other
(`blockAt?_eq_of_mem`), and an access is granted exactly when it lies in one live block
(`locate_eq_ok_iff`).
-/

set_option autoImplicit false

namespace Stowage

/-! ### The space of a block -/

namespace Heap

/-- The space of a block is a multiple of the alignment. -/
theorem alignment_dvd_footprint (count : Nat) : alignment ∣ footprint count :=
  Nat.dvd_mul_left _ _

/-- A block fits in its space. -/
theorem le_footprint (count : Nat) : max count 1 ≤ footprint count := by
  unfold footprint alignment
  omega

theorem footprint_pos (count : Nat) : 0 < footprint count := by
  have h := le_footprint count
  omega

/-- An empty block takes the space of a block of one byte. -/
theorem footprint_max_one (count : Nat) : footprint (max count 1) = footprint count := by
  unfold footprint
  congr 2
  omega

end Heap

@[simp] theorem Block.release_start (block : Block) : block.release.start = block.start := rfl

@[simp] theorem Block.release_live (block : Block) : block.release.live = false := rfl

@[simp] theorem Block.length_release (block : Block) :
    block.release.data.length = block.data.length := by
  simp [Block.release]

@[simp] theorem Block.release_stop (block : Block) : block.release.stop = block.stop := by
  simp [Block.stop]

/-! ### Blocks one behind the other -/

/-- Blocks, the last one first, that take up the memory from the first address up to `top` without
gaps except for the padding behind each block. No block is empty. -/
def Stacked : (top : Nat) → List Block → Prop
  | top, [] => top = Heap.alignment
  | top, block :: older =>
    0 < block.data.length ∧ top = block.start + Heap.footprint block.data.length ∧
      Stacked block.start older

namespace Stacked

variable {top : Nat} {blocks : List Block}

theorem alignment_le (h : Stacked top blocks) : Heap.alignment ≤ top := by
  induction blocks generalizing top with
  | nil => exact Nat.le_of_eq h.symm
  | cons block older ih =>
    obtain ⟨_, htop, holder⟩ := h
    have := ih holder
    omega

/-- Block starts and the top are multiples of the alignment. -/
theorem alignment_dvd (h : Stacked top blocks) : Heap.alignment ∣ top := by
  induction blocks generalizing top with
  | nil => exact h ▸ Nat.dvd_refl _
  | cons block older ih =>
    obtain ⟨_, htop, holder⟩ := h
    rw [htop]
    exact Nat.dvd_add (ih holder) (Heap.alignment_dvd_footprint _)

/-- What holds of every block on its own. -/
theorem of_mem (h : Stacked top blocks) {block : Block} (hmem : block ∈ blocks) :
    0 < block.data.length ∧ Heap.alignment ≤ block.start ∧ Heap.alignment ∣ block.start ∧
      block.start + Heap.footprint block.data.length ≤ top := by
  induction blocks generalizing top with
  | nil => exact absurd hmem List.not_mem_nil
  | cons first older ih =>
    obtain ⟨hlength, htop, holder⟩ := h
    rcases List.mem_cons.1 hmem with rfl | hmem
    · exact ⟨hlength, holder.alignment_le, holder.alignment_dvd, Nat.le_of_eq htop.symm⟩
    · obtain ⟨h₁, h₂, h₃, h₄⟩ := ih holder hmem
      exact ⟨h₁, h₂, h₃, by omega⟩

theorem stop_le (h : Stacked top blocks) {block : Block} (hmem : block ∈ blocks) :
    block.stop ≤ top := by
  have hspace := Heap.le_footprint block.data.length
  have := (h.of_mem hmem).2.2.2
  unfold Block.stop
  omega

theorem start_lt_stop (h : Stacked top blocks) {block : Block} (hmem : block ∈ blocks) :
    block.start < block.stop := by
  have := (h.of_mem hmem).1
  unfold Block.stop
  omega

theorem start_lt (h : Stacked top blocks) {block : Block} (hmem : block ∈ blocks) :
    block.start < top :=
  Nat.lt_of_lt_of_le (h.start_lt_stop hmem) (h.stop_le hmem)

/-- The addresses of blocks differ. -/
theorem nodup_starts (h : Stacked top blocks) : (blocks.map (·.start)).Nodup := by
  induction blocks generalizing top with
  | nil => exact .nil
  | cons block older ih =>
    obtain ⟨_, _, holder⟩ := h
    refine List.nodup_cons.2 ⟨?_, ih holder⟩
    intro hmem
    obtain ⟨other, hother, hstart⟩ := List.mem_map.1 hmem
    have hlt := holder.start_lt hother
    exact Nat.lt_irrefl _ (hstart ▸ hlt)

/-- Two blocks that start before each other ends are one. -/
theorem eq_of_overlap (h : Stacked top blocks) {first second : Block} (hfirst : first ∈ blocks)
    (hsecond : second ∈ blocks) (h₁ : first.start < second.stop)
    (h₂ : second.start < first.stop) : first = second := by
  induction blocks generalizing top with
  | nil => exact absurd hfirst List.not_mem_nil
  | cons block older ih =>
    obtain ⟨_, _, holder⟩ := h
    rcases List.mem_cons.1 hfirst with hfirst' | hfirst <;>
      rcases List.mem_cons.1 hsecond with hsecond' | hsecond
    · rw [hfirst', hsecond']
    · have := holder.stop_le hsecond
      rw [hfirst'] at h₁
      omega
    · have := holder.stop_le hfirst
      rw [hsecond'] at h₂
      omega
    · exact ih holder hfirst hsecond

theorem eq_of_start_eq (h : Stacked top blocks) {first second : Block} (hfirst : first ∈ blocks)
    (hsecond : second ∈ blocks) (hstart : first.start = second.start) : first = second := by
  have h₁ := h.start_lt_stop hfirst
  have h₂ := h.start_lt_stop hsecond
  exact h.eq_of_overlap hfirst hsecond (by omega) (by omega)

/-- A change of blocks that moves none of them keeps them stacked. -/
theorem map (h : Stacked top blocks) {f : Block → Block}
    (hstart : ∀ b ∈ blocks, (f b).start = b.start)
    (hlength : ∀ b ∈ blocks, (f b).data.length = b.data.length) : Stacked top (blocks.map f) := by
  induction blocks generalizing top with
  | nil => exact h
  | cons block older ih =>
    obtain ⟨hpos, htop, holder⟩ := h
    have hblock : block ∈ block :: older := List.mem_cons_self
    rw [List.map_cons]
    refine ⟨?_, ?_, ?_⟩
    · rw [hlength block hblock]
      exact hpos
    · rw [hstart block hblock, hlength block hblock]
      exact htop
    · rw [hstart block hblock]
      exact ih holder (fun b hb ↦ hstart b (List.mem_cons_of_mem _ hb))
        (fun b hb ↦ hlength b (List.mem_cons_of_mem _ hb))

end Stacked

namespace Heap

/-- A heap whose memory was not given back, with its blocks one behind the other and room for them
all. -/
structure Sound (heap : Heap) : Prop where
  /-- The memory is there. -/
  isOpen : heap.closed = false
  /-- The blocks lie one behind the other. -/
  stacked : Stacked heap.top heap.blocks
  /-- There is room to grow from. -/
  capacity_pos : 0 < heap.capacity
  /-- There is room for every block. -/
  top_le : heap.blocks ≠ [] → heap.top ≤ heap.capacity

theorem sound_empty (capacity : Nat) : (empty capacity).Sound where
  isOpen := rfl
  stacked := rfl
  capacity_pos := by
    unfold empty defaultCapacity
    dsimp only
    split <;> omega
  top_le := by
    intro h
    exact absurd rfl h

variable {heap : Heap}

/-! ### Look-ups -/

theorem isLive_iff (address : Int) :
    heap.isLive address = true ↔
      ∃ block ∈ heap.blocks, block.live = true ∧ (block.start : Int) = address := by
  simp [isLive]

theorem blockAt?_eq_some {address : Int} {block : Block} (h : heap.blockAt? address = some block) :
    block ∈ heap.blocks ∧ (block.start : Int) ≤ address :=
  ⟨List.mem_of_find?_eq_some h, by simpa using List.find?_some h⟩

/-- An address inside a block leads to that block. -/
theorem Sound.blockAt?_eq_of_mem (hsound : heap.Sound) {address : Int} {block : Block}
    (hmem : block ∈ heap.blocks) (hstart : (block.start : Int) ≤ address)
    (hstop : address < block.stop) : heap.blockAt? address = some block := by
  have hstacked := hsound.stacked
  unfold blockAt?
  generalize heap.top = top at hstacked
  generalize heap.blocks = blocks at hmem hstacked
  induction blocks generalizing top with
  | nil => exact absurd hmem List.not_mem_nil
  | cons first older ih =>
    obtain ⟨_, _, holder⟩ := hstacked
    rcases List.mem_cons.1 hmem with rfl | hmem
    · rw [List.find?_cons_of_pos (by simpa using hstart)]
    · -- the newer block starts behind the end of the one that holds the address
      have hbefore := holder.stop_le hmem
      rw [List.find?_cons_of_neg]
      · exact ih _ hmem holder
      · simp only [decide_eq_true_eq]
        omega

/-- An access is granted when the block that its address leads to is live and reaches far enough. -/
theorem locate_eq_ok_iff {address count : Int} {block : Block} :
    heap.locate address count = .ok block ↔
      heap.blockAt? address = some block ∧ block.live = true ∧ address + count ≤ block.stop := by
  unfold locate
  split
  · next hnone => simp [hnone]
  · next found hfound =>
    rw [hfound]
    constructor
    · intro h
      split at h
      · exact absurd h (by simp)
      · next hlive =>
        split at h
        · exact absurd h (by simp)
        · next hstop =>
          obtain rfl := Except.ok.inj h
          exact ⟨rfl, by simpa using hlive, by omega⟩
    · rintro ⟨hsame, hlive, hstop⟩
      obtain rfl := Option.some.inj hsame
      have hreach : ¬ address + count > found.stop := by omega
      simp [hlive, hreach]

theorem locate_eq_ok {address count : Int} {block : Block}
    (h : heap.locate address count = .ok block) :
    block ∈ heap.blocks ∧ block.live = true ∧ (block.start : Int) ≤ address ∧
      address + count ≤ block.stop := by
  obtain ⟨hfound, hlive, hstop⟩ := locate_eq_ok_iff.1 h
  obtain ⟨hmem, hstart⟩ := blockAt?_eq_some hfound
  exact ⟨hmem, hlive, hstart, hstop⟩

theorem locate_error {address count : Int} {fault : Fault}
    (h : heap.locate address count = .error fault) : ∃ cause, fault = .memory cause := by
  unfold locate at h
  split at h
  · exact ⟨_, (Except.error.inj h).symm⟩
  · split at h
    · exact ⟨_, (Except.error.inj h).symm⟩
    · split at h
      · exact ⟨_, (Except.error.inj h).symm⟩
      · exact absurd h (by simp)

/-- An access of at least one byte is granted exactly when it lies in one live block. -/
theorem Sound.locate_eq_ok_iff (hsound : heap.Sound) {address count : Int} (hcount : 0 < count)
    {block : Block} :
    heap.locate address count = .ok block ↔
      block ∈ heap.blocks ∧ block.live = true ∧ (block.start : Int) ≤ address ∧
        address + count ≤ block.stop := by
  constructor
  · exact locate_eq_ok
  · rintro ⟨hmem, hlive, hstart, hstop⟩
    exact Heap.locate_eq_ok_iff.2
      ⟨hsound.blockAt?_eq_of_mem hmem hstart (by omega), hlive, hstop⟩

/-- The start of a block leads to the block, whatever the size of the access. -/
theorem Sound.locate_start (hsound : heap.Sound) {block : Block} (hmem : block ∈ heap.blocks)
    (hlive : block.live = true) {count : Nat} (hcount : count ≤ block.data.length) :
    heap.locate block.start count = .ok block := by
  have hpos := hsound.stacked.start_lt_stop hmem
  refine Heap.locate_eq_ok_iff.2
    ⟨hsound.blockAt?_eq_of_mem hmem (Int.le_refl _) (by omega), hlive, ?_⟩
  unfold Block.stop
  omega

end Heap

end Stowage
