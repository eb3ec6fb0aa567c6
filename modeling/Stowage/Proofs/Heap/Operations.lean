import Stowage.Proofs.Action
import Stowage.Proofs.Bytes
import Stowage.Proofs.Heap.Layout
import Stowage.Store.Payloads

/-!
# What the heap operations do

On a sound heap every operation is granted or refused by a rule about blocks. Allocation never
fails: it adds one live block at the top (`allocate_eq`, `place_eq`). Freeing is granted exactly at
the start of a live block (`free_eq`, `free_error`), and a list of different live addresses can be
freed as a whole (`freeAll_eq`). A read from the start of a live block gives the front of its
contents (`read_start`).
-/

set_option autoImplicit false

namespace Stowage

/-! ### Releasing and adding blocks -/

/-- The block, freed if its address is one of those given. -/
def Block.releaseIf (addresses : List Nat) (block : Block) : Block :=
  if block.start ∈ addresses then block.release else block

namespace Block

@[simp] theorem releaseIf_start (addresses : List Nat) (block : Block) :
    (block.releaseIf addresses).start = block.start := by
  unfold releaseIf
  split <;> rfl

@[simp] theorem length_releaseIf (addresses : List Nat) (block : Block) :
    (block.releaseIf addresses).data.length = block.data.length := by
  unfold releaseIf
  split <;> simp

@[simp] theorem releaseIf_nil (block : Block) : block.releaseIf [] = block := rfl

theorem releaseIf_of_mem {addresses : List Nat} {block : Block} (h : block.start ∈ addresses) :
    block.releaseIf addresses = block.release := if_pos h

theorem releaseIf_of_not_mem {addresses : List Nat} {block : Block}
    (h : block.start ∉ addresses) : block.releaseIf addresses = block := if_neg h

theorem releaseIf_live (addresses : List Nat) (block : Block) :
    (block.releaseIf addresses).live = true ↔ block.live = true ∧ block.start ∉ addresses := by
  unfold releaseIf
  split <;> simp [*]

/-- Freeing a freed block changes nothing. -/
@[simp] theorem release_release (block : Block) : block.release.release = block.release := by
  simp [release]

theorem releaseIf_releaseIf (first second : List Nat) (block : Block) :
    (block.releaseIf first).releaseIf second = block.releaseIf (first ++ second) := by
  unfold releaseIf
  by_cases h₁ : block.start ∈ first <;> by_cases h₂ : block.start ∈ second <;>
    simp [h₁, h₂]

end Block

namespace Heap

/-- The heap with the blocks at the given addresses freed. -/
def release (heap : Heap) (addresses : List Nat) : Heap :=
  { heap with blocks := heap.blocks.map (Block.releaseIf addresses) }

@[simp] theorem release_nil (heap : Heap) : heap.release [] = heap := by
  have hid : Block.releaseIf [] = id := funext Block.releaseIf_nil
  simp [release, hid]

theorem release_release (heap : Heap) (first second : List Nat) :
    (heap.release first).release second = heap.release (first ++ second) := by
  simp [release, Block.releaseIf_releaseIf]

@[simp] theorem release_top (heap : Heap) (addresses : List Nat) :
    (heap.release addresses).top = heap.top := rfl

/-- The heap with a live block of the given contents at the top. -/
def extend (heap : Heap) (data : Bytes) : Heap :=
  let top := heap.top + footprint data.length
  { heap with
    capacity := grown top heap.capacity
    top
    blocks := ⟨heap.top, data, true⟩ :: heap.blocks }

/-- A capacity that grows becomes large enough. -/
theorem le_grown {needed capacity : Nat} (h : 0 < capacity) : needed ≤ grown needed capacity := by
  fun_induction grown needed capacity with
  | case1 capacity hlt ih => exact ih (by omega)
  | case2 capacity hnot => omega

/-- A capacity that is large enough stays. -/
theorem grown_of_le {needed capacity : Nat} (h : needed ≤ capacity) :
    grown needed capacity = capacity := by
  rw [grown, if_neg]
  omega

theorem grown_pos {needed capacity : Nat} (h : 0 < capacity) : 0 < grown needed capacity := by
  fun_induction grown needed capacity with
  | case1 capacity hlt ih => exact ih (by omega)
  | case2 capacity hnot => exact h

theorem Sound.release {heap : Heap} (h : heap.Sound) (addresses : List Nat) :
    (heap.release addresses).Sound where
  isOpen := h.isOpen
  stacked := h.stacked.map (fun b _ ↦ Block.releaseIf_start addresses b)
    (fun b _ ↦ Block.length_releaseIf addresses b)
  capacity_pos := h.capacity_pos
  top_le := by
    intro hblocks
    refine h.top_le fun hnil ↦ hblocks ?_
    simp [Heap.release, hnil]

theorem Sound.extend {heap : Heap} (h : heap.Sound) {data : Bytes} (hdata : 0 < data.length) :
    (heap.extend data).Sound where
  isOpen := h.isOpen
  stacked := ⟨hdata, rfl, h.stacked⟩
  capacity_pos := grown_pos h.capacity_pos
  top_le := fun _ ↦ le_grown h.capacity_pos

variable {heap : Heap}

/-! ### Allocation -/

/-- Allocation adds a block of zero bytes, also to a closed heap that has room for it. -/
theorem allocate_granted (count : Nat)
    (h : heap.closed = true → heap.top + footprint count ≤ heap.capacity) :
    (allocate count).run heap = (.ok heap.top, heap.extend (Bytes.zeros (max count 1))) := by
  have hneg : ¬ (count : Int) < 0 := by omega
  have hroom : ¬ (heap.capacity < heap.top + footprint count ∧ heap.closed = true) :=
    fun ⟨hfull, hclosed⟩ ↦ Nat.not_lt.2 (h hclosed) hfull
  simp [Action.run, allocate, hneg, hroom, extend, footprint_max_one]

/-- Allocation is granted when the memory is there. -/
theorem allocate_eq (hsound : heap.Sound) (count : Nat) :
    (allocate count).run heap = (.ok heap.top, heap.extend (Bytes.zeros (max count 1))) :=
  allocate_granted count fun hclosed ↦ absurd (hsound.isOpen.symm.trans hclosed) (by simp)

/-- A closed heap does not grow. -/
theorem allocate_closed (hclosed : heap.closed = true) {count : Nat}
    (h : heap.capacity < heap.top + footprint count) :
    (allocate count).run heap = (.error (.memory .closed), heap) := by
  have hneg : ¬ (count : Int) < 0 := by omega
  simp [Action.run, allocate, hneg, h, hclosed]

/-- A negative number of bytes is refused. -/
theorem allocate_negative {count : Int} (h : count < 0) :
    (allocate count).run heap = (.error (.invalid (.allocation count)), heap) := by
  simp [Action.run, allocate, h]

theorem overwrite_zeros (bytes : Bytes) :
    overwrite 0 bytes (Bytes.zeros (max bytes.length 1)) = Bytes.padTo 1 bytes := by
  have hlength : max bytes.length 1 - bytes.length = 1 - bytes.length := by omega
  simp [overwrite, Bytes.padTo, Bytes.zeros, hlength]

/-- The block at the top of an extended heap is the only one at its address. -/
theorem alter_extend (hsound : heap.Sound) (data : Bytes) (f : Block → Block) :
    (heap.extend data).alter heap.top f =
      { heap.extend data with blocks := f ⟨heap.top, data, true⟩ :: heap.blocks } := by
  have hother : heap.blocks.map (fun b ↦ if b.start = heap.top then f b else b) = heap.blocks := by
    refine (List.map_congr_left fun b hb ↦ ?_).trans (List.map_id _)
    have hlt := hsound.stacked.start_lt hb
    rw [if_neg (by omega), id]
  simp [alter, extend, hother]

/-- Writing to a block just given out fills it. -/
theorem write_extend (hsound : heap.Sound) (bytes : Bytes) :
    (write heap.top bytes).run (heap.extend (Bytes.zeros (max bytes.length 1))) =
      (.ok (), heap.extend (Bytes.padTo 1 bytes)) := by
  have hdata : 0 < (Bytes.zeros (max bytes.length 1)).length := by
    rw [Bytes.length_zeros]
    omega
  have hlocate : (heap.extend (Bytes.zeros (max bytes.length 1))).locate heap.top bytes.length =
      .ok ⟨heap.top, Bytes.zeros (max bytes.length 1), true⟩ :=
    (hsound.extend hdata).locate_start List.mem_cons_self rfl
      (by rw [Bytes.length_zeros]; omega)
  have hopen : (heap.extend (Bytes.zeros (max bytes.length 1))).closed = false := hsound.isOpen
  have hlength : (Bytes.padTo 1 bytes).length = (Bytes.zeros (max bytes.length 1)).length := by
    rw [Bytes.length_padTo, Bytes.length_zeros]
  have hoffset : ((heap.top : Int) - (heap.top : Int)).toNat = 0 := by omega
  simp only [Action.run, write, hlocate, hopen, hoffset, Bool.false_eq_true, if_false,
    alter_extend hsound, overwrite_zeros]
  simp [extend, hlength, hsound.isOpen]

/-- Bytes are placed in a block of their own, which holds one zero byte when there are none. -/
theorem place_eq (hsound : heap.Sound) (bytes : Bytes) :
    (place bytes).run heap = (.ok heap.top, heap.extend (Bytes.padTo 1 bytes)) := by
  have hallocate := allocate_eq hsound bytes.length
  have hwrite := write_extend hsound bytes
  unfold place
  rw [Action.run_bind_ok hallocate, Action.run_bind_ok hwrite]
  rfl

/-! ### Freeing -/

theorem isLive_natCast (address : Nat) :
    heap.isLive address = true ↔
      ∃ block ∈ heap.blocks, block.live = true ∧ block.start = address := by
  simp only [isLive_iff, Int.natCast_inj]

theorem alter_release (address : Nat) :
    heap.alter address Block.release = heap.release [address] := by
  simp [alter, release, Block.releaseIf]

/-- A live block is freed. -/
theorem free_eq (hsound : heap.Sound) {address : Nat} (hlive : heap.isLive address = true) :
    (free address).run heap = (.ok (), heap.release [address]) := by
  have hopen : heap.closed = false := hsound.isOpen
  simp [Action.run, free, hlive, hopen, alter_release]

/-- A live block of a closed heap is freed although the call is refused. -/
theorem free_closed (hclosed : heap.closed = true) {address : Nat}
    (hlive : heap.isLive address = true) :
    (free address).run heap = (.error (.memory .closed), heap.release [address]) := by
  simp [Action.run, free, hlive, hclosed, alter_release]

/-- Nothing else is freed. -/
theorem free_error {address : Int} (hlive : ¬ heap.isLive address = true) :
    (free address).run heap = (.error (.memory (.notLive address)), heap) := by
  simp [Action.run, free, hlive]

/-- Freeing some blocks leaves the others live. -/
theorem isLive_release {freed : List Nat} {address : Nat} :
    (heap.release freed).isLive address = true ↔
      heap.isLive address = true ∧ address ∉ freed := by
  simp only [isLive_natCast, release, List.mem_map]
  constructor
  · rintro ⟨_, ⟨block, hmem, rfl⟩, hlive, hstart⟩
    rw [Block.releaseIf_live] at hlive
    rw [Block.releaseIf_start] at hstart
    exact ⟨⟨block, hmem, hlive.1, hstart⟩, hstart ▸ hlive.2⟩
  · rintro ⟨⟨block, hmem, hlive, hstart⟩, hnot⟩
    exact ⟨_, ⟨block, hmem, rfl⟩, (Block.releaseIf_live _ _).2 ⟨hlive, hstart ▸ hnot⟩,
      (Block.releaseIf_start _ _).trans hstart⟩

/-- Different live blocks can be freed one after another. -/
theorem freeAll_eq (hsound : heap.Sound) {addresses : List Nat} (hnodup : addresses.Nodup)
    (hlive : ∀ a ∈ addresses, heap.isLive a = true) :
    (freeAll addresses).run heap = (.ok (), heap.release addresses) := by
  induction addresses generalizing heap with
  | nil =>
    rw [release_nil]
    rfl
  | cons address rest ih =>
    obtain ⟨hnot, hrest⟩ := List.nodup_cons.1 hnodup
    have hfree := free_eq hsound (hlive address List.mem_cons_self)
    have hrestLive : ∀ a ∈ rest, (heap.release [address]).isLive a = true := by
      intro a ha
      have hne : a ≠ address := fun h ↦ hnot (h ▸ ha)
      exact isLive_release.2 ⟨hlive a (List.mem_cons_of_mem _ ha), by simpa using hne⟩
    have hall := ih (hsound.release [address]) hrest hrestLive
    rw [release_release, List.singleton_append] at hall
    rw [show freeAll (address :: rest) = (free address >>= fun _ ↦ freeAll rest) from rfl,
      Action.run_bind_ok hfree]
    exact hall

/-! ### Reading -/

/-- A read from the start of a live block gives the front of its contents. -/
theorem read_start (hsound : heap.Sound) {block : Block} (hmem : block ∈ heap.blocks)
    (hlive : block.live = true) {count : Nat} (hcount : count ≤ block.data.length) :
    heap.read block.start count = .ok (block.data.take count) := by
  have hneg : ¬ (count : Int) < 0 := by omega
  simp [read, hsound.locate_start hmem hlive hcount, hsound.isOpen, hneg]

/-- A string at the start of a live block ends at the first zero byte. -/
theorem readString_start (hsound : heap.Sound) {block : Block} (hmem : block ∈ heap.blocks)
    (hlive : block.live = true) (hzero : block.data.contains 0 = true) :
    heap.readString block.start = .ok (Bytes.untilNul block.data) := by
  have hlocate := hsound.locate_start hmem hlive (Nat.zero_le _)
  rw [Int.natCast_zero] at hlocate
  simp only [readString, hlocate, hsound.isOpen, Bool.false_eq_true, if_false, Int.sub_self,
    Int.toNat_zero, List.drop_zero, hzero, if_true]

/-- What a granted read of no or more bytes gives. -/
theorem read_eq_ok {address : Int} {count : Nat} {bytes : Bytes}
    (h : heap.read address count = .ok bytes) :
    ∃ block, heap.locate address count = .ok block ∧
      bytes = (block.data.drop (address - block.start).toNat).take count := by
  unfold read at h
  split at h
  · exact absurd h (by simp)
  · next block hlocate =>
    have hneg : ¬ (count : Int) < 0 := by omega
    rw [if_neg hneg] at h
    split at h
    · exact absurd h (by simp)
    · exact ⟨block, hlocate, by simpa using (Except.ok.inj h).symm⟩

theorem length_of_read {address : Int} {count : Nat} {bytes : Bytes}
    (h : heap.read address count = .ok bytes) : bytes.length = count := by
  obtain ⟨block, hlocate, rfl⟩ := read_eq_ok h
  obtain ⟨_, _, hstart, hstop⟩ := locate_eq_ok hlocate
  unfold Block.stop at hstop
  simp only [List.length_take, List.length_drop]
  omega

/-- What a granted read of a string gives. -/
theorem readString_eq_ok {address : Int} {bytes : Bytes} (h : heap.readString address = .ok bytes) :
    ∃ block, heap.locate address 0 = .ok block ∧
      (block.data.drop (address - block.start).toNat).contains 0 = true ∧
      bytes = Bytes.untilNul (block.data.drop (address - block.start).toNat) := by
  unfold readString at h
  split at h
  · exact absurd h (by simp)
  · next block hlocate =>
    split at h
    · exact absurd h (by simp)
    · dsimp only at h
      split at h
      · next hzero => exact ⟨block, hlocate, hzero, (Except.ok.inj h).symm⟩
      · exact absurd h (by simp)

theorem readString_error {address : Int} {fault : Fault}
    (h : heap.readString address = .error fault) : ∃ cause, fault = .memory cause := by
  unfold readString at h
  split at h
  · next hlocate =>
    obtain rfl := Except.error.inj h
    exact locate_error hlocate
  · split at h
    · exact ⟨_, (Except.error.inj h).symm⟩
    · dsimp only at h
      split at h
      · exact absurd h (by simp)
      · exact ⟨_, (Except.error.inj h).symm⟩

theorem read_error {address count : Int} {fault : Fault}
    (h : heap.read address count = .error fault) : ∃ cause, fault = .memory cause := by
  unfold read at h
  split at h
  · next hlocate =>
    obtain rfl := Except.error.inj h
    exact locate_error hlocate
  · split at h
    · exact ⟨_, (Except.error.inj h).symm⟩
    · split at h <;> exact absurd h (by simp)

/-! ### Writing -/

/-- A write that is granted changes the block it lies in. -/
theorem write_eq (hsound : heap.Sound) {address : Int} {bytes : Bytes} {block : Block}
    (hlocate : heap.locate address bytes.length = .ok block) :
    (write address bytes).run heap = (.ok (), heap.alter block.start fun b ↦
      { b with data := overwrite (address - block.start).toNat bytes b.data }) := by
  simp [Action.run, write, hlocate, hsound.isOpen]

theorem write_error {address : Int} {bytes : Bytes} {fault : Fault}
    (hlocate : heap.locate address bytes.length = .error fault) :
    (write address bytes).run heap = (.error fault, heap) := by
  simp [Action.run, write, hlocate]

/-- Bytes written to a block do not move the top. -/
theorem Sound.top_write (hsound : heap.Sound) (address : Int) (bytes : Bytes) :
    ((write address bytes).run heap).2.top = heap.top := by
  rcases hlocate : heap.locate address bytes.length with fault | block
  · rw [write_error hlocate]
  · rw [write_eq hsound hlocate]
    rfl

/-- Altering a block that keeps a property leaves the property somewhere or nowhere, as before. -/
theorem exists_alter (hsound : heap.Sound) {block : Block} (hmem : block ∈ heap.blocks)
    {f : Block → Block} (p : Block → Prop) (hp : p (f block) ↔ p block) :
    (∃ b ∈ (heap.alter block.start f).blocks, p b) ↔ ∃ b ∈ heap.blocks, p b := by
  simp only [alter, List.mem_map]
  constructor
  · rintro ⟨_, ⟨b, hb, rfl⟩, hpb⟩
    by_cases hsame : b.start = block.start
    · obtain rfl := hsound.stacked.eq_of_start_eq hb hmem hsame
      rw [if_pos rfl] at hpb
      exact ⟨b, hb, hp.1 hpb⟩
    · rw [if_neg hsame] at hpb
      exact ⟨b, hb, hpb⟩
  · rintro ⟨b, hb, hpb⟩
    refine ⟨_, ⟨b, hb, rfl⟩, ?_⟩
    by_cases hsame : b.start = block.start
    · obtain rfl := hsound.stacked.eq_of_start_eq hb hmem hsame
      rw [if_pos rfl]
      exact hp.2 hpb
    · rw [if_neg hsame]
      exact hpb

/-- A granted write keeps a heap sound. -/
theorem Sound.alter_overwrite (hsound : heap.Sound) {block : Block} (hmem : block ∈ heap.blocks)
    {offset : Nat} {bytes : Bytes} (hfits : offset + bytes.length ≤ block.data.length) :
    (heap.alter block.start fun b ↦ { b with data := overwrite offset bytes b.data }).Sound where
  isOpen := hsound.isOpen
  stacked := by
    refine hsound.stacked.map (fun b _ ↦ ?_) (fun b hb ↦ ?_)
    · split <;> rfl
    · split
      · next hsame =>
        obtain rfl := hsound.stacked.eq_of_start_eq hb hmem hsame
        exact Bytes.length_overwrite hfits
      · rfl
  capacity_pos := hsound.capacity_pos
  top_le := by
    intro hblocks
    refine hsound.top_le fun hnil ↦ hblocks ?_
    simp [alter, hnil]

/-- A write keeps a heap sound, granted or not. -/
theorem Sound.write (hsound : heap.Sound) (address : Int) (bytes : Bytes) :
    ((Heap.write address bytes).run heap).2.Sound := by
  rcases hlocate : heap.locate address bytes.length with fault | block
  · rw [write_error hlocate]
    exact hsound
  · obtain ⟨hmem, _, hstart, hstop⟩ := locate_eq_ok hlocate
    rw [write_eq hsound hlocate]
    refine hsound.alter_overwrite hmem ?_
    unfold Block.stop at hstop
    omega

/-- Freeing keeps a heap sound, granted or not. -/
theorem Sound.free (hsound : heap.Sound) (address : Int) :
    ((Heap.free address).run heap).2.Sound := by
  by_cases hlive : heap.isLive address = true
  · obtain ⟨block, _, _, rfl⟩ := (isLive_iff address).1 hlive
    rw [free_eq hsound hlive]
    exact hsound.release _
  · rw [free_error hlive]
    exact hsound

end Heap

end Stowage
