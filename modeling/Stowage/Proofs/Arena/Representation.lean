import Stowage.Arena
import Stowage.Proofs.Heap.Lifetime
import Mathlib.Data.List.GetD

/-!
# Arenas that hold the blocks of a heap

`Arena.Represents` ties an arena to the blocks of a heap: the books list the blocks in the order in
which they were given out, and the memory is the whole memory of the heap. Every operation gives the
same outcome on both and keeps them tied (`Represents.run`).

The block that an access starts in is the one whose number the halving of the addresses finds: all
addresses before that number are at most the one that is looked up, and all behind it are larger
(`bisectRight_bounds`), and the heap's blocks stand in the opposite order (`Represents.locate`). A
block that is given out consists of zero bytes because all bytes behind the top are zero, also in
memory that was copied to a larger place (`Represents.allocate`).
-/

set_option autoImplicit false

namespace Stowage

/-! ### Blocks by their addresses -/

namespace Stacked

variable {top : Nat} {blocks : List Block}

/-- The space of a block ends where that of a later block starts, or before. -/
theorem pairwise_apart (h : Stacked top blocks) :
    blocks.Pairwise fun later block ↦
      block.start + Heap.footprint block.data.length ≤ later.start := by
  induction blocks generalizing top with
  | nil => exact .nil
  | cons first older ih =>
    obtain ⟨_, _, holder⟩ := h
    exact List.pairwise_cons.2 ⟨fun block hmem ↦ (holder.of_mem hmem).2.2.2, ih holder⟩

/-- Blocks that were given out later have larger addresses. -/
theorem pairwise_starts (h : Stacked top blocks) :
    (blocks.map (·.start)).reverse.Pairwise (· < ·) := by
  rw [List.pairwise_reverse, List.pairwise_map]
  refine h.pairwise_apart.imp fun {later block} happart ↦ ?_
  have hspace := Heap.footprint_pos block.data.length
  omega

/-- The first block that starts at or before an address is the one with the largest such start. -/
theorem find?_eq_some (h : Stacked top blocks) {block : Block} (hmem : block ∈ blocks)
    {address : Int} (hstart : (block.start : Int) ≤ address)
    (hlast : ∀ other ∈ blocks, (other.start : Int) ≤ address → other.start ≤ block.start) :
    blocks.find? (fun b ↦ decide ((b.start : Int) ≤ address)) = some block := by
  induction blocks generalizing top with
  | nil => exact absurd hmem List.not_mem_nil
  | cons first older ih =>
    obtain ⟨_, _, holder⟩ := h
    rcases List.mem_cons.1 hmem with rfl | hmem
    · rw [List.find?_cons_of_pos (by simpa using hstart)]
    · have hbehind : ¬ (first.start : Int) ≤ address := fun hfirst ↦
        Nat.not_lt.2 (hlast first List.mem_cons_self hfirst) (holder.start_lt hmem)
      rw [List.find?_cons_of_neg (by simpa using hbehind)]
      exact ih holder hmem fun other hother ↦ hlast other (List.mem_cons_of_mem _ hother)

end Stacked

/-- What stands among the blocks after one of them was changed. -/
theorem Heap.Ordered.mem_alter {heap : Heap} (hordered : heap.Ordered) {block : Block}
    (hmem : block ∈ heap.blocks) {f : Block → Block} {b : Block} :
    b ∈ (heap.alter block.start f).blocks ↔
      b = f block ∨ (b ∈ heap.blocks ∧ b.start ≠ block.start) := by
  have hsame : ∀ other ∈ heap.blocks, other.start = block.start → other = block :=
    fun other hother ↦ hordered.stacked.eq_of_start_eq hother hmem
  simp only [Heap.alter, List.mem_map]
  constructor
  · rintro ⟨other, hother, rfl⟩
    by_cases hstart : other.start = block.start
    · obtain rfl := hsame other hother hstart
      exact .inl (if_pos rfl)
    · rw [if_neg hstart]
      exact .inr ⟨hother, hstart⟩
  · rintro (rfl | ⟨hother, hstart⟩)
    · exact ⟨block, hmem, if_pos rfl⟩
    · exact ⟨b, hother, if_neg hstart⟩

/-! ### Zero bytes in a string -/

/-- The bytes before the first zero byte are as many as its place says. -/
theorem Bytes.untilNul_eq_take {bytes : Bytes} {length : Nat} (h : bytes.idxOf? 0 = some length) :
    untilNul bytes = bytes.take length := by
  induction bytes generalizing length with
  | nil => exact absurd h (by simp)
  | cons b rest ih =>
    rw [List.idxOf?_cons] at h
    by_cases hb : b = 0
    · subst hb
      obtain rfl : 0 = length := by simpa using h
      simp [untilNul]
    · rw [if_neg (by simpa using hb)] at h
      obtain ⟨inner, hinner, rfl⟩ := Option.map_eq_some_iff.1 h
      have htail := ih hinner
      unfold untilNul at htail ⊢
      rw [List.takeWhile_cons_of_pos (by simpa using hb), htail, List.take_succ_cons]

namespace Arena

/-! ### Halving -/

/-- Halving finds the place in a rising list up to which the numbers are at most `x` and from which
on they are larger. -/
theorem bisectRight_bounds {xs : List Nat} (hsorted : xs.Pairwise (· < ·)) {x : Int}
    {low high : Nat} (hlow : low ≤ high) (hhigh : high ≤ xs.length)
    (hbefore : ∀ i < low, (xs.getD i 0 : Int) ≤ x)
    (hbehind : ∀ i, high ≤ i → i < xs.length → x < xs.getD i 0) :
    bisectRight xs x low high ≤ xs.length ∧
      (∀ i < bisectRight xs x low high, (xs.getD i 0 : Int) ≤ x) ∧
      ∀ i, bisectRight xs x low high ≤ i → i < xs.length → x < xs.getD i 0 := by
  have hrising : ∀ i j, i < j → j < xs.length → xs.getD i 0 < xs.getD j 0 := by
    intro i j hij hj
    rw [List.getD_eq_getElem _ _ (by omega), List.getD_eq_getElem _ _ hj]
    exact List.pairwise_iff_getElem.1 hsorted i j (by omega) hj hij
  fun_induction bisectRight xs x low high with
  | case1 low high hlt middle hless ih =>
    refine ih (by omega) (by omega) hbefore fun i hi hlength ↦ ?_
    rcases Nat.lt_or_eq_of_le hi with hi | rfl
    · have := hrising middle i hi hlength
      omega
    · exact hless
  | case2 low high hlt middle hmore ih =>
    refine ih (by omega) hhigh (fun i hi ↦ ?_) hbehind
    rcases Nat.lt_or_eq_of_le (Nat.lt_succ_iff.1 hi) with hi | rfl
    · have := hrising i middle hi (by omega)
      omega
    · omega
  | case3 low high hnot =>
    exact ⟨by omega, hbefore, fun i hi ↦ hbehind i (by omega)⟩

/-! ### The arena of a heap -/

/-- An arena holds the blocks of a heap. -/
structure Represents (arena : Arena) (heap : Heap) : Prop where
  /-- The capacities are the same. -/
  capacity : arena.capacity = heap.capacity
  /-- The next block has the same address. -/
  top : arena.top = heap.top
  /-- The memory holds the blocks at their addresses and zero bytes elsewhere. -/
  memory : arena.memory = if heap.closed then none else some heap.image
  /-- The addresses are those of the blocks, the first one first. -/
  starts : arena.starts = (heap.blocks.map (·.start)).reverse
  /-- The sizes are those of the blocks. -/
  sizes : ∀ block ∈ heap.blocks, arena.sizes.lookup block.start = some block.data.length
  /-- The live addresses are those of the live blocks. -/
  live : ∀ start, start ∈ arena.live ↔
    ∃ block ∈ heap.blocks, block.live = true ∧ block.start = start
  /-- No address is live twice. -/
  nodup : arena.live.Nodup

namespace Represents

variable {arena : Arena} {heap : Heap}

theorem empty (capacity : Nat) : (Arena.empty capacity).Represents (Heap.empty capacity) where
  capacity := rfl
  top := rfl
  memory := by simp [Arena.empty, Heap.empty, Heap.image, Heap.imageOf, Bytes.padTo]
  starts := rfl
  sizes _ hmem := absurd hmem List.not_mem_nil
  live := by simp [Arena.empty, Heap.empty]
  nodup := .nil

theorem memory_open (h : arena.Represents heap) (hopen : heap.closed = false) :
    arena.memory = some heap.image := by
  rw [h.memory, hopen]
  rfl

theorem memory_closed (h : arena.Represents heap) (hclosed : heap.closed = true) :
    arena.memory = none := by
  rw [h.memory, if_pos hclosed]

theorem isLive (h : arena.Represents heap) (address : Int) :
    arena.isLive address = heap.isLive address := by
  rw [Bool.eq_iff_iff, Heap.isLive_iff]
  simp only [Arena.isLive, List.any_eq_true, beq_iff_eq, h.live]
  constructor
  · rintro ⟨_, ⟨block, hmem, hlive, rfl⟩, hstart⟩
    exact ⟨block, hmem, hlive, hstart⟩
  · rintro ⟨block, hmem, hlive, hstart⟩
    exact ⟨block.start, ⟨block, hmem, hlive, rfl⟩, hstart⟩

theorem sizeAt (h : arena.Represents heap) {block : Block} (hmem : block ∈ heap.blocks) :
    arena.sizeAt block.start = block.data.length := by
  rw [Arena.sizeAt, h.sizes block hmem, Option.getD_some]

theorem contains_live (h : arena.Represents heap) (hordered : heap.Ordered) {block : Block}
    (hmem : block ∈ heap.blocks) : arena.live.contains block.start = block.live := by
  rw [Bool.eq_iff_iff, List.contains_iff_mem, h.live]
  constructor
  · rintro ⟨other, hother, hlive, hstart⟩
    exact hordered.stacked.eq_of_start_eq hother hmem hstart ▸ hlive
  · exact fun hlive ↦ ⟨block, hmem, hlive, rfl⟩

/-- The number that halving finds leads to the block that the heap finds. -/
theorem blockAt?_cases (h : arena.Represents heap) (hordered : heap.Ordered) (address : Int) :
    (bisectRight arena.starts address 0 arena.starts.length = 0 ∧ heap.blockAt? address = none) ∨
      ∃ index, ∃ block ∈ heap.blocks,
        bisectRight arena.starts address 0 arena.starts.length = index + 1 ∧
          arena.starts.getD index 0 = block.start ∧ heap.blockAt? address = some block := by
  have hsorted : arena.starts.Pairwise (· < ·) := by
    rw [h.starts]
    exact hordered.stacked.pairwise_starts
  have hmember : ∀ block ∈ heap.blocks, ∃ i < arena.starts.length,
      arena.starts.getD i 0 = block.start := by
    intro block hmem
    have hstart : block.start ∈ arena.starts := by
      rw [h.starts, List.mem_reverse]
      exact List.mem_map_of_mem hmem
    obtain ⟨i, hi, heq⟩ := List.mem_iff_getElem.1 hstart
    exact ⟨i, hi, (List.getD_eq_getElem _ _ hi).trans heq⟩
  obtain ⟨hlength, hbefore, hbehind⟩ := bisectRight_bounds hsorted (x := address)
    (Nat.zero_le _) (Nat.le_refl _) (by simp) (fun i hi hlt ↦ absurd hi (Nat.not_le.2 hlt))
  rcases hplace : bisectRight arena.starts address 0 arena.starts.length with _ | index
  · rw [hplace] at hbehind
    refine .inl ⟨rfl, List.find?_eq_none.2 fun block hmem ↦ ?_⟩
    obtain ⟨i, hi, heq⟩ := hmember block hmem
    have hlater := hbehind i (Nat.zero_le _) hi
    rw [heq] at hlater
    simpa using hlater
  · rw [hplace] at hlength hbefore hbehind
    have hin : arena.starts.getD index 0 ∈ heap.blocks.map (·.start) := by
      rw [List.getD_eq_getElem _ _ hlength, ← List.mem_reverse, ← h.starts]
      exact List.getElem_mem _
    obtain ⟨block, hmem, hstart⟩ := List.mem_map.1 hin
    have hfirst : (block.start : Int) ≤ address := hstart ▸ hbefore index (Nat.lt_succ_self _)
    refine .inr ⟨index, block, hmem, rfl, hstart.symm, ?_⟩
    refine hordered.stacked.find?_eq_some hmem hfirst fun other hother hle ↦ ?_
    -- a block that starts at or before the address has a number that is no larger
    obtain ⟨i, hi, heq⟩ := hmember other hother
    have hnumber : i ≤ index := by
      by_contra hlarger
      have hlater := hbehind i (by omega) hi
      rw [heq] at hlater
      omega
    rw [← heq, hstart, List.getD_eq_getElem _ _ hi, List.getD_eq_getElem _ _ hlength]
    rcases Nat.lt_or_eq_of_le hnumber with hlt | rfl
    · exact Nat.le_of_lt (List.pairwise_iff_getElem.1 hsorted i index hi hlength hlt)
    · exact Nat.le_refl _

/-- An access lies in the same block. -/
theorem locate (h : arena.Represents heap) (hordered : heap.Ordered) (address count : Int) :
    arena.locate address count =
      (heap.locate address count).map fun block ↦ (block.start, block.stop) := by
  unfold Arena.locate Heap.locate
  rcases h.blockAt?_cases hordered address with
    ⟨hplace, hnone⟩ | ⟨index, block, hmem, hplace, hstart, hsome⟩
  · rw [hplace, hnone]
    rfl
  · rw [hplace, hsome]
    dsimp only
    rw [hstart, h.sizeAt hmem, h.contains_live hordered hmem]
    change _ = Except.map _ (if _ then _ else
      if address + count > (block.start + block.data.length : Nat) then _ else _)
    split
    · rfl
    · split <;> rfl

/-! ### Reading -/

theorem read (h : arena.Represents heap) (hordered : heap.Ordered) (address count : Int) :
    arena.read address count = heap.read address count := by
  unfold Arena.read Heap.read
  rw [h.locate hordered]
  rcases hlocate : heap.locate address count with fault | block
  · rfl
  dsimp only [Except.map, bind, Except.bind]
  rcases hopen : heap.closed with _ | _
  · obtain ⟨hmem, _, hstart, hstop⟩ := Heap.locate_eq_ok hlocate
    rw [h.memory_open hopen, if_neg Bool.false_ne_true]
    dsimp only
    by_cases hcount : count < 0
    · rw [if_pos hcount]
    · rw [if_neg hcount]
      obtain ⟨start, rfl⟩ := Int.eq_ofNat_of_zero_le (by omega : 0 ≤ address)
      obtain ⟨count, rfl⟩ := Int.eq_ofNat_of_zero_le (by omega : 0 ≤ count)
      have hoffset : ((start : Int) - block.start).toNat = start - block.start := by omega
      rw [hoffset]
      exact congrArg _ ((hordered.sound hopen).slice_image hmem (by omega) (by omega))
  · rw [h.memory_closed hopen, if_pos rfl]

theorem readString (h : arena.Represents heap) (hordered : heap.Ordered) (address : Int) :
    arena.readString address = heap.readString address := by
  unfold Arena.readString Heap.readString
  rw [h.locate hordered]
  rcases hlocate : heap.locate address 0 with fault | block
  · rfl
  dsimp only [Except.map, bind, Except.bind]
  rcases hopen : heap.closed with _ | _
  · obtain ⟨hmem, _, hstart, hstop⟩ := Heap.locate_eq_ok hlocate
    have hsound := hordered.sound hopen
    obtain ⟨start, rfl⟩ := Int.eq_ofNat_of_zero_le (by omega : 0 ≤ address)
    have hoffset : ((start : Int) - block.start).toNat = start - block.start := by omega
    have hrest : Bytes.slice heap.image (start : Int) (block.stop : Int) =
        block.data.drop (start - block.start) :=
      hsound.slice_image_stop hmem (by omega) (by omega)
    rw [h.memory_open hopen, if_neg Bool.false_ne_true, hoffset]
    dsimp only
    rw [hrest]
    rcases hplace : (block.data.drop (start - block.start)).idxOf? 0 with _ | length
    · rw [if_neg (by simpa using List.idxOf?_eq_none_iff.1 hplace)]
    · obtain ⟨hlength, hzero, _⟩ := List.idxOf?_eq_some_iff.1 hplace
      have hcontains : (block.data.drop (start - block.start)).contains 0 = true :=
        List.contains_iff_mem.2 (hzero ▸ List.getElem_mem hlength)
      rw [if_pos hcontains, Bytes.untilNul_eq_take hplace]
      rw [List.length_drop] at hlength
      unfold Block.stop at hstop
      exact congrArg _ (hsound.slice_image hmem (by omega) (by unfold Block.stop; omega))
  · rw [h.memory_closed hopen, if_pos rfl]

/-! ### Giving out blocks -/

/-- Room is made by copying the memory in front of zero bytes. -/
theorem reserve (h : arena.Represents heap) (hordered : heap.Ordered) {needed : Nat}
    (hroom : heap.closed = true → needed ≤ heap.capacity) :
    (Arena.reserve needed).run arena = (.ok (), { arena with
      memory := if heap.closed then none else
        some (Bytes.padTo (Heap.grown needed heap.capacity) (Heap.imageOf heap.blocks))
      capacity := Heap.grown needed heap.capacity }) := by
  rw [Action.run, Arena.reserve, h.capacity]
  split
  · next hfull =>
    have hopen : heap.closed = false := Bool.eq_false_iff.2 fun hclosed ↦ by
      have := hroom hclosed
      omega
    have hsound := hordered.sound hopen
    have hlength := hsound.length_image
    have hgrown : needed ≤ Heap.grown needed heap.capacity := Heap.le_grown hsound.capacity_pos
    have hblocks : (Heap.imageOf heap.blocks).length ≤ heap.image.length := by
      rw [Heap.image, Bytes.length_padTo]
      omega
    have hcopy : Bytes.splice (Bytes.zeros (Heap.grown needed heap.capacity)) 0 heap.capacity
        heap.image = Bytes.padTo (Heap.grown needed heap.capacity) (Heap.imageOf heap.blocks) := by
      have hfits : heap.image.length ≤ Heap.grown needed heap.capacity := by omega
      have hsplice := Bytes.splice_zeros hfits
      rw [hlength] at hsplice
      exact hsplice.trans (Bytes.padTo_padTo (by omega))
    simp only [Arena.grow, h.memory_open hopen, h.capacity, hcopy, hopen]
    rfl
  · next hfits =>
    have hmemory : arena.memory = if heap.closed then none else
        some (Bytes.padTo heap.capacity (Heap.imageOf heap.blocks)) := h.memory
    rw [Heap.grown_of_le (Nat.not_lt.1 hfits), ← hmemory, ← h.capacity]

/-- A block that is given out consists of zero bytes. -/
theorem allocate (h : arena.Represents heap) (hordered : heap.Ordered) (count : Int) :
    ((Arena.allocate count).run arena).1 = ((Heap.allocate count).run heap).1 ∧
      ((Arena.allocate count).run arena).2.Represents ((Heap.allocate count).run heap).2 := by
  by_cases hnegative : count < 0
  · rw [Heap.allocate_negative hnegative]
    simp only [Action.run, Arena.allocate, if_pos hnegative]
    exact ⟨trivial, h⟩
  obtain ⟨count, rfl⟩ := Int.eq_ofNat_of_zero_le (Int.not_lt.1 hnegative)
  have htop : arena.top + Heap.footprint count = heap.top + Heap.footprint count := by rw [h.top]
  by_cases hfull : heap.closed = true ∧ heap.capacity < heap.top + Heap.footprint count
  · -- the memory that would be copied is not there
    obtain ⟨hclosed, hfull⟩ := hfull
    rw [Heap.allocate_closed hclosed hfull]
    simp only [Action.run, Arena.allocate, if_neg hnegative, Int.toNat_natCast, htop, Arena.reserve,
      h.capacity, if_pos hfull, Arena.grow, h.memory_closed hclosed]
    exact ⟨trivial, h⟩
  · have hroom : heap.closed = true → heap.top + Heap.footprint count ≤ heap.capacity :=
      fun hclosed ↦ Nat.not_lt.1 fun hlt ↦ hfull ⟨hclosed, hlt⟩
    have hreserve := h.reserve hordered hroom
    rw [Action.run] at hreserve
    rw [Heap.allocate_granted count hroom]
    simp only [Action.run, Arena.allocate, if_neg hnegative, Int.toNat_natCast, htop, hreserve]
    have hfresh : arena.top ∉ arena.live := by
      rw [h.top]
      intro hlive
      obtain ⟨block, hmem, _, hstart⟩ := (h.live _).1 hlive
      exact absurd hstart (Nat.ne_of_lt (hordered.stacked.start_lt hmem))
    refine ⟨by rw [h.top], ?_, ?_, ?_, ?_, ?_, ?_, ?_⟩
    · simp [Heap.extend, Heap.footprint_max_one]
    · simp [Heap.extend, Heap.footprint_max_one]
    · rcases hopen : heap.closed with _ | _
      · have himage := (hordered.sound hopen).image_extend count
        simp [Heap.extend, hopen] at himage ⊢
        exact himage.symm
      · simp [Heap.extend, hopen]
    · simp [Heap.extend, h.starts, h.top]
    · intro block hmem
      rcases List.mem_cons.1 hmem with rfl | hmem
      · simp [h.top, Bytes.length_zeros]
      · have hne : block.start ≠ arena.top := by
          rw [h.top]
          exact Nat.ne_of_lt (hordered.stacked.start_lt hmem)
        rw [List.lookup_cons, beq_false_of_ne hne]
        exact h.sizes block hmem
    · intro start
      simp [Heap.extend, h.live, h.top, eq_comm (a := start)]
    · rw [List.insert_of_not_mem hfresh]
      exact List.nodup_cons.2 ⟨hfresh, h.nodup⟩

/-! ### Changing a block -/

/-- A block that was changed where it is. -/
theorem alter (h : arena.Represents heap) (hordered : heap.Ordered) {block : Block}
    (hmem : block ∈ heap.blocks) {f : Block → Block} (hstart : ∀ b, (f b).start = b.start)
    {offset : Nat} {bytes : Bytes} (hfits : offset + bytes.length ≤ block.data.length)
    (hdata : (f block).data = Heap.overwrite offset bytes block.data) {live : List Nat}
    (hlive : ∀ start, start ∈ live ↔
      ∃ b ∈ (heap.alter block.start f).blocks, b.live = true ∧ b.start = start)
    (hnodup : live.Nodup) {address : Int} (haddress : address = block.start + offset) :
    Represents { arena with memory := arena.memory.map (poke · address bytes), live }
      (heap.alter block.start f) where
  capacity := h.capacity
  top := h.top
  memory := by
    rcases hopen : heap.closed with _ | _
    · have hsound := hordered.sound hopen
      have hstop := hsound.stacked.stop_le hmem
      have hroom := hsound.top_le (List.ne_nil_of_mem hmem)
      have hlength := hsound.length_image
      have hpoke : poke heap.image (block.start + offset : Nat) bytes =
          Heap.overwrite (block.start + offset) bytes heap.image :=
        Bytes.splice_eq_overwrite rfl (by unfold Block.stop at hstop; omega)
      have himage := hsound.image_alter hmem hfits (hstart block) hdata
      rw [h.memory_open hopen, Option.map_some, haddress, ← Int.natCast_add, hpoke, ← himage]
      exact (if_neg (by simp [Heap.alter, hopen])).symm
    · rw [h.memory_closed hopen]
      simp [Heap.alter, hopen]
  starts := by
    rw [h.starts]
    simp only [Heap.alter, List.map_map]
    congr 2
    funext b
    simp only [Function.comp]
    split <;> simp [hstart]
  sizes := by
    intro b hb
    rcases (hordered.mem_alter hmem).1 hb with rfl | ⟨hb, _⟩
    · rw [hstart, hdata, Bytes.length_overwrite hfits]
      exact h.sizes block hmem
    · exact h.sizes b hb
  live := hlive
  nodup := hnodup

theorem free (h : arena.Represents heap) (hordered : heap.Ordered) (address : Int) :
    ((Arena.free address).run arena).1 = ((Heap.free address).run heap).1 ∧
      ((Arena.free address).run arena).2.Represents ((Heap.free address).run heap).2 := by
  by_cases hlive : heap.isLive address = true
  · obtain ⟨block, hmem, hblock, rfl⟩ := (Heap.isLive_iff address).1 hlive
    have hpoison : block.release.data =
        Heap.overwrite 0 (List.replicate block.data.length Block.poison) block.data :=
      (Bytes.overwrite_zero (by simp)).symm
    have hfits : 0 + (List.replicate block.data.length Block.poison).length ≤
        block.data.length := by simp
    have hkept : ∀ start, start ∈ arena.live.erase block.start ↔
        ∃ b ∈ (heap.alter block.start Block.release).blocks, b.live = true ∧ b.start = start := by
      intro start
      rw [h.nodup.mem_erase_iff, h.live]
      constructor
      · rintro ⟨hne, other, hother, hotherLive, rfl⟩
        exact ⟨other, (hordered.mem_alter hmem).2 (.inr ⟨hother, hne⟩), hotherLive, rfl⟩
      · rintro ⟨b, hb, hbLive, rfl⟩
        rcases (hordered.mem_alter hmem).1 hb with rfl | ⟨hb, hne⟩
        · exact absurd hbLive (by simp)
        · exact ⟨hne, b, hb, hbLive, rfl⟩
    have haddress : (block.start : Int) = block.start + (0 : Nat) := by simp
    have hfreed := h.alter hordered hmem Block.release_start hfits hpoison hkept
      (h.nodup.erase _) haddress
    simp only [Action.run, Arena.free, Heap.free, h.isLive, hlive, if_true, Int.toNat_natCast,
      h.sizeAt hmem]
    rcases hopen : heap.closed with _ | _
    · rw [h.memory_open hopen] at hfreed ⊢
      exact ⟨rfl, hfreed⟩
    · rw [h.memory_closed hopen] at hfreed ⊢
      exact ⟨rfl, hfreed⟩
  · rw [Heap.free_error hlive]
    simp only [Action.run, Arena.free, h.isLive, hlive, if_false, Bool.false_eq_true]
    exact ⟨trivial, h⟩

theorem write (h : arena.Represents heap) (hordered : heap.Ordered) (address : Int)
    (bytes : Bytes) :
    ((Arena.write address bytes).run arena).1 = ((Heap.write address bytes).run heap).1 ∧
      ((Arena.write address bytes).run arena).2.Represents
        ((Heap.write address bytes).run heap).2 := by
  simp only [Action.run, Arena.write, Heap.write, h.locate hordered]
  rcases hlocate : heap.locate address bytes.length with fault | block
  · exact ⟨rfl, h⟩
  dsimp only [Except.map]
  rcases hopen : heap.closed with _ | _
  · obtain ⟨hmem, hlive, hstart, hstop⟩ := Heap.locate_eq_ok hlocate
    unfold Block.stop at hstop
    let f (b : Block) : Block :=
      { b with data := Heap.overwrite (address - block.start).toNat bytes b.data }
    have hsame : ∀ b, (f b).start = b.start := fun _ ↦ rfl
    have hdata : (f block).data =
        Heap.overwrite (address - block.start).toNat bytes block.data := rfl
    have hfits : (address - block.start).toNat + bytes.length ≤ block.data.length := by omega
    have haddress : address = block.start + (address - block.start).toNat := by omega
    have hkept : ∀ start, start ∈ arena.live ↔
        ∃ b ∈ (heap.alter block.start f).blocks, b.live = true ∧ b.start = start :=
      fun start ↦ (h.live start).trans (Heap.exists_alter (hordered.sound hopen) hmem
        (fun b ↦ b.live = true ∧ b.start = start) Iff.rfl).symm
    have hwritten := h.alter hordered hmem hsame hfits hdata hkept h.nodup haddress
    rw [h.memory_open hopen] at hwritten ⊢
    exact ⟨rfl, hwritten⟩
  · rw [h.memory_closed hopen]
    exact ⟨rfl, h⟩

theorem close (h : arena.Represents heap) : arena.close.Represents heap.close where
  capacity := h.capacity
  top := h.top
  memory := rfl
  starts := by simp [Arena.close, Heap.close, h.starts, Function.comp_def]
  sizes := by
    intro block hmem
    obtain ⟨older, holder, rfl⟩ := List.mem_map.1 hmem
    exact h.sizes older holder
  live := by simp [Arena.close, Heap.close]
  nodup := .nil

end Represents

end Arena

end Stowage
