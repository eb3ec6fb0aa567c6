import Stowage.Proofs.Heap.Lifetime

/-!
# Reads lie in one block

`Shows` says that an access lies in one live block, that the bytes are those the block and the whole
memory have there, and that no other block reaches into it. A granted read of no negative number of
bytes shows its bytes in this sense, in every heap that operations can lead to (`read_contained`).

A negative number of bytes passes the check of the end of the block. Such a read is a cut of the
whole memory whose end may count from the back, and so it may give bytes of any block, of freed ones
and of memory that was never given out (`read_strays`).
-/

set_option autoImplicit false

namespace Stowage.Heap

/-- The `count` bytes at an address lie in a live block, and in no other block. -/
structure Shows (heap : Heap) (block : Block) (address count : Int) (bytes : Bytes) : Prop where
  /-- The block was given out. -/
  mem : block ∈ heap.blocks
  /-- The block was not freed. -/
  live : block.live = true
  /-- The access starts in the block. -/
  start_le : (block.start : Int) ≤ address
  /-- The access ends in the block. -/
  le_stop : address + count ≤ block.stop
  /-- There are as many bytes as were asked for. -/
  length_eq : (bytes.length : Int) = count
  /-- The bytes are those of the block. -/
  bytes_eq : bytes = (block.data.drop (address - block.start).toNat).take count.toNat
  /-- The bytes are those of the memory at the address. -/
  image_eq : bytes = Bytes.slice heap.image address (address + count)
  /-- No other block reaches into the block. -/
  apart : ∀ other ∈ heap.blocks, other ≠ block →
    other.stop ≤ block.start ∨ block.stop ≤ other.start

variable {heap : Heap} {address count : Int} {bytes : Bytes}

theorem isOpen_of_read (h : heap.read address count = .ok bytes) : heap.closed = false := by
  refine Bool.eq_false_iff.2 fun hclosed ↦ ?_
  obtain ⟨cause, hrefused⟩ := read_closed hclosed address count
  exact absurd (hrefused.symm.trans h) (by simp)

/-- A granted read of no negative number of bytes lies in one live block. -/
theorem Sound.shows_of_read (hsound : heap.Sound) (hcount : 0 ≤ count)
    (h : heap.read address count = .ok bytes) : ∃ block, heap.Shows block address count bytes := by
  obtain ⟨count, rfl⟩ := Int.eq_ofNat_of_zero_le hcount
  obtain ⟨block, hlocate, hbytes⟩ := read_eq_ok h
  obtain ⟨hmem, hlive, hstart, hstop⟩ := locate_eq_ok hlocate
  refine ⟨block, hmem, hlive, hstart, hstop, congrArg _ (length_of_read h), hbytes,
    hsound.read_eq_slice_image h, fun other hother hne ↦ ?_⟩
  by_contra hoverlap
  obtain ⟨hfirst, hsecond⟩ := not_or.1 hoverlap
  exact hne (hsound.stacked.eq_of_overlap hother hmem (Nat.not_le.1 hsecond) (Nat.not_le.1 hfirst))

/-- A read of at least one byte is granted exactly when it lies in a live block. -/
theorem Sound.exists_read_iff (hsound : heap.Sound) (hcount : 0 < count) :
    (∃ bytes, heap.read address count = .ok bytes) ↔
      ∃ block ∈ heap.blocks, block.live = true ∧ (block.start : Int) ≤ address ∧
        address + count ≤ block.stop := by
  constructor
  · rintro ⟨bytes, h⟩
    obtain ⟨block, hshows⟩ := hsound.shows_of_read (Int.le_of_lt hcount) h
    exact ⟨block, hshows.mem, hshows.live, hshows.start_le, hshows.le_stop⟩
  · rintro ⟨block, hblock⟩
    have hlocate := (hsound.locate_eq_ok_iff hcount).2 hblock
    have hnegative : ¬ count < 0 := by omega
    refine ⟨(block.data.drop (address - block.start).toNat).take count.toNat, ?_⟩
    simp only [read, hlocate, hsound.isOpen, Bool.false_eq_true, if_false, if_neg hnegative]

/-- What a granted read of a negative number of bytes gives. -/
theorem read_negative (hcount : count < 0) (h : heap.read address count = .ok bytes) :
    bytes = Bytes.slice heap.image address (address + count) := by
  have hopen := isOpen_of_read h
  unfold read at h
  split at h
  · exact absurd h (by simp)
  · rw [if_neg (Bool.eq_false_iff.1 hopen), if_pos hcount] at h
    exact (Except.ok.inj h).symm

/-- A read is refused by the memory, or it lies in one live block.

In every heap that operations can lead to, also in one that was closed, a read that is refused is
refused by the memory. A granted read of no negative number of bytes gives exactly so many, and they
lie in one live block; one of at least one byte is granted exactly when the heap is not closed and a
live block holds it. A granted read of a negative number of bytes gives a cut of the whole memory,
which is empty unless its end lies below zero. -/
theorem read_contained (capacity : Nat) (operations : List Operation) (address count : Int) :
    let heap := afterOperations operations (empty capacity)
    (∀ fault, heap.read address count = .error fault → ∃ cause, fault = .memory cause) ∧
    (0 ≤ count → ∀ bytes, heap.read address count = .ok bytes →
      ∃ block, heap.Shows block address count bytes) ∧
    (0 < count → ((∃ bytes, heap.read address count = .ok bytes) ↔
      heap.closed = false ∧ ∃ block ∈ heap.blocks, block.live = true ∧
        (block.start : Int) ≤ address ∧ address + count ≤ block.stop)) ∧
    (count < 0 → ∀ bytes, heap.read address count = .ok bytes →
      bytes = Bytes.slice heap.image address (address + count) ∧
        (0 ≤ address + count → bytes = [])) := by
  intro heap
  have hordered := (ordered_empty capacity).afterOperations operations
  refine ⟨fun fault ↦ read_error, fun hcount bytes h ↦ ?_, fun hcount ↦ ?_, fun hcount bytes h ↦ ?_⟩
  · exact (hordered.sound (isOpen_of_read h)).shows_of_read hcount h
  · constructor
    · rintro ⟨bytes, h⟩
      have hopen := isOpen_of_read h
      exact ⟨hopen, ((hordered.sound hopen).exists_read_iff hcount).1 ⟨bytes, h⟩⟩
    · rintro ⟨hopen, hblock⟩
      exact ((hordered.sound hopen).exists_read_iff hcount).2 hblock
  · have hbytes := read_negative hcount h
    refine ⟨hbytes, fun hend ↦ ?_⟩
    rw [hbytes]
    exact Bytes.slice_of_lt _ hend (by omega)

/-- A read of fewer than no bytes that is granted, and gives bytes of a freed block and of memory
that was never given out. -/
theorem read_strays :
    let heap := afterOperations [.allocate 8, .allocate 8, .free 16] (empty 64)
    let bytes := List.replicate 8 0 ++ List.replicate 8 Block.poison ++ List.replicate 16 0
    heap.isLive 16 = false ∧ heap.read 8 (-32) = .ok bytes ∧
      ∀ block, ¬ heap.Shows block 8 (-32) bytes := by
  refine ⟨by decide +kernel, by decide +kernel, fun block hshows ↦ ?_⟩
  exact absurd hshows.length_eq (by decide)

end Stowage.Heap
