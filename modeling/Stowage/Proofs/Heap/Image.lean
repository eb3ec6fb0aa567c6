import Stowage.Proofs.Heap.Operations

/-!
# The whole memory

`Heap.image` puts the blocks of a heap at their addresses, with zero bytes between and behind them.
On a sound heap it is exactly as long as the capacity says (`length_image`), and every block is
found in it at its address (`slice_image`), so a granted read is a cut of the whole memory
(`read_eq_slice_image`).

A block of zero bytes at the top changes nothing in it (`image_extend`), and bytes written to a
block are written to it (`image_alter`).
-/

set_option autoImplicit false

namespace Stowage.Heap

theorem length_imageOf_le {top : Nat} {blocks : List Block} (h : Stacked top blocks) :
    (imageOf blocks).length ≤ top := by
  induction blocks generalizing top with
  | nil => exact Nat.zero_le _
  | cons block older ih =>
    obtain ⟨_, htop, holder⟩ := h
    have hle := ih holder
    have hspace := le_footprint block.data.length
    simp only [imageOf, List.length_append, Bytes.length_padTo]
    omega

/-- A block lies in the memory at its address. -/
theorem imageOf_drop_take {top : Nat} {blocks : List Block} (h : Stacked top blocks) {block : Block}
    (hmem : block ∈ blocks) :
    ∃ before after,
      imageOf blocks = before ++ block.data ++ after ∧ before.length = block.start := by
  induction blocks generalizing top with
  | nil => exact absurd hmem List.not_mem_nil
  | cons first older ih =>
    obtain ⟨_, _, holder⟩ := h
    rcases List.mem_cons.1 hmem with rfl | hmem
    · refine ⟨Bytes.padTo block.start (imageOf older), [], by simp [imageOf], ?_⟩
      have hle := length_imageOf_le holder
      rw [Bytes.length_padTo]
      omega
    · obtain ⟨before, after, himage, hbefore⟩ := ih holder hmem
      refine ⟨before, after ++ Bytes.zeros (first.start - (imageOf older).length) ++ first.data, ?_,
        hbefore⟩
      simp [imageOf, Bytes.padTo, himage]

variable {heap : Heap}

/-- The memory is as large as the capacity says. -/
theorem Sound.length_image (hsound : heap.Sound) : heap.image.length = heap.capacity := by
  have hle : (imageOf heap.blocks).length ≤ heap.capacity := by
    by_cases hnil : heap.blocks = []
    · simp [hnil, imageOf]
    · exact Nat.le_trans (length_imageOf_le hsound.stacked) (hsound.top_le hnil)
  unfold image
  rw [Bytes.length_padTo]
  omega

/-- A cut of the memory inside a block is a cut of the block. -/
theorem Sound.slice_image (hsound : heap.Sound) {block : Block} (hmem : block ∈ heap.blocks)
    {start count : Nat} (hstart : block.start ≤ start) (hstop : start + count ≤ block.stop) :
    Bytes.slice heap.image (start : Nat) ((start + count : Nat) : Int) =
      (block.data.drop (start - block.start)).take count := by
  obtain ⟨before, after, himage, hbefore⟩ := imageOf_drop_take hsound.stacked hmem
  have hsplit : heap.image = before ++ (block.data ++
      (after ++ Bytes.zeros (heap.capacity - (imageOf heap.blocks).length))) := by
    unfold image Bytes.padTo
    rw [himage]
    simp only [List.append_assoc]
  unfold Block.stop at hstop
  obtain ⟨gap, rfl⟩ : ∃ gap, start = before.length + gap := ⟨start - before.length, by omega⟩
  have hgap : before.length + gap - block.start = gap := by omega
  have hcount : before.length + gap + count - (before.length + gap) = count := by omega
  rw [Bytes.slice_natCast, List.drop_take, hcount, hsplit, ← List.drop_drop, List.drop_left,
    List.drop_append_of_le_length (by omega),
    List.take_append_of_le_length (by rw [List.length_drop]; omega), hgap]

/-- The memory up to the end of a block is the rest of the block. -/
theorem Sound.slice_image_stop (hsound : heap.Sound) {block : Block} (hmem : block ∈ heap.blocks)
    {start : Nat} (hstart : block.start ≤ start) (hstop : start ≤ block.stop) :
    Bytes.slice heap.image (start : Nat) (block.stop : Int) =
      block.data.drop (start - block.start) := by
  have hend : start + (block.stop - start) = block.stop := by omega
  have hlength : (block.data.drop (start - block.start)).length = block.stop - start := by
    unfold Block.stop at hstop ⊢
    rw [List.length_drop]
    omega
  rw [← hend, hsound.slice_image hmem hstart (by omega), ← hlength, List.take_length]

/-- A granted read is a cut of the whole memory. -/
theorem Sound.read_eq_slice_image (hsound : heap.Sound) {address : Int} {count : Nat}
    {bytes : Bytes}
    (h : heap.read address count = .ok bytes) :
    bytes = Bytes.slice heap.image address (address + count) := by
  obtain ⟨block, hlocate, rfl⟩ := read_eq_ok h
  obtain ⟨hmem, _, hstart, hstop⟩ := locate_eq_ok hlocate
  obtain ⟨start, rfl⟩ := Int.eq_ofNat_of_zero_le (by omega : (0 : Int) ≤ address)
  have hoffset : ((start : Int) - block.start).toNat = start - block.start := by omega
  rw [hoffset]
  exact (hsound.slice_image hmem (by omega) (by omega)).symm

/-! ### How the memory changes -/

/-- A block of zero bytes at the top is there already, once the memory is large enough. -/
theorem Sound.image_extend (hsound : heap.Sound) (count : Nat) :
    (heap.extend (Bytes.zeros (max count 1))).image =
      Bytes.padTo (grown (heap.top + footprint count) heap.capacity) (imageOf heap.blocks) := by
  have hle := length_imageOf_le hsound.stacked
  have hroom : heap.top + footprint count ≤ grown (heap.top + footprint count) heap.capacity :=
    le_grown hsound.capacity_pos
  have hspace := le_footprint count
  have hfits : max heap.top (imageOf heap.blocks).length + max count 1 ≤
      grown (heap.top + footprint count) heap.capacity := by
    omega
  calc (heap.extend (Bytes.zeros (max count 1))).image
      = Bytes.padTo (grown (heap.top + footprint count) heap.capacity)
          (Bytes.padTo heap.top (imageOf heap.blocks) ++ Bytes.zeros (max count 1)) := by
        simp only [image, Heap.extend, imageOf, Bytes.length_zeros, footprint_max_one]
    _ = _ := Bytes.padTo_padTo_append_zeros hfits

/-- Bytes written to a block are written to the memory at its address. -/
theorem imageOf_alter {top : Nat} {blocks : List Block} (h : Stacked top blocks) {block : Block}
    (hmem : block ∈ blocks) {f : Block → Block} {offset : Nat} {bytes : Bytes}
    (hfits : offset + bytes.length ≤ block.data.length) (hstart : (f block).start = block.start)
    (hdata : (f block).data = overwrite offset bytes block.data) :
    imageOf (blocks.map fun b ↦ if b.start = block.start then f b else b) =
      overwrite (block.start + offset) bytes (imageOf blocks) := by
  induction blocks generalizing top with
  | nil => exact absurd hmem List.not_mem_nil
  | cons first older ih =>
    have hstarts := h.nodup_starts
    obtain ⟨_, _, holder⟩ := h
    have hlength : (Bytes.padTo first.start (imageOf older)).length = first.start := by
      have hle := length_imageOf_le holder
      rw [Bytes.length_padTo]
      omega
    rw [List.map_cons, imageOf, imageOf]
    rcases List.mem_cons.1 hmem with rfl | hmem
    · -- the older blocks start elsewhere and stay as they are
      have hother : older.map (fun b ↦ if b.start = block.start then f b else b) = older := by
        refine (List.map_congr_left fun b hb ↦ ?_).trans (List.map_id _)
        have hlt := holder.start_lt hb
        rw [if_neg (by omega), id]
      rw [hother, if_pos rfl, hstart, hdata, Bytes.overwrite_append_right hlength]
    · have hne : first.start ≠ block.start := fun hsame ↦
        (List.nodup_cons.1 hstarts).1 (List.mem_map.2 ⟨block, hmem, hsame.symm⟩)
      obtain ⟨before, after, himage, hbefore⟩ := imageOf_drop_take holder hmem
      have hinside : block.start + offset + bytes.length ≤ (imageOf older).length := by
        rw [himage]
        simp only [List.length_append]
        omega
      rw [if_neg hne, ih holder hmem, Bytes.padTo_overwrite hinside,
        Bytes.overwrite_append_left (by rw [Bytes.length_padTo]; omega)]

theorem Sound.image_alter (hsound : heap.Sound) {block : Block} (hmem : block ∈ heap.blocks)
    {f : Block → Block} {offset : Nat} {bytes : Bytes}
    (hfits : offset + bytes.length ≤ block.data.length) (hstart : (f block).start = block.start)
    (hdata : (f block).data = overwrite offset bytes block.data) :
    (heap.alter block.start f).image = overwrite (block.start + offset) bytes heap.image := by
  obtain ⟨before, after, himage, hbefore⟩ := imageOf_drop_take hsound.stacked hmem
  have hinside : block.start + offset + bytes.length ≤ (imageOf heap.blocks).length := by
    rw [himage]
    simp only [List.length_append]
    omega
  unfold image alter
  rw [imageOf_alter hsound.stacked hmem hfits hstart hdata, Bytes.padTo_overwrite hinside]

end Stowage.Heap
