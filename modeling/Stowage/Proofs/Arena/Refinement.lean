import Stowage.Proofs.Arena.Representation

/-!
# An arena answers as a table of blocks

Runs of an arena follow the runs of the heap whose blocks it holds (`represents_afterOperations`,
`Represents.trace`), and a heap answers as a table of blocks does. So every answer of an arena is
one that the table of blocks allows (`trace_allowed`), from any capacity it may start with, however
often its memory is copied to a larger place on the way.

`Sound` is what always holds of the books and the memory: the addresses rise, each block has its
space to itself, everything lies in the memory, and all bytes from the top on are zero.
-/

set_option autoImplicit false

namespace Stowage

/-- The operation that a call is. -/
def Heap.Call.operation : Heap.Call → Heap.Operation
  | .allocate count => .allocate count
  | .free address => .free address
  | .read address count => .read address count
  | .readString address => .readString address
  | .write address bytes => .write address bytes

theorem Heap.Call.action_operation (call : Heap.Call) : call.operation.action = call.action := by
  cases call <;> rfl

namespace Arena

open Heap (Answer Call Operation Outcome)

/-- Runs an operation on an arena. -/
def perform : Operation → Action Arena Answer
  | .allocate count => .address <$> allocate count
  | .free address => (fun _ ↦ .done) <$> free address
  | .read address count => .reading fun arena ↦ (arena.read address count).map .bytes
  | .readString address => .reading fun arena ↦ (arena.readString address).map .bytes
  | .write address bytes => (fun _ ↦ .done) <$> write address bytes
  | .close => (fun _ ↦ .done) <$> Action.update close

/-- The arena after operations. -/
def afterOperations : List Operation → Arena → Arena
  | [], arena => arena
  | operation :: rest, arena => afterOperations rest ((perform operation).run arena).2

/-- The calls of a run with their outcomes. -/
def trace : List Call → Arena → List (Call × Outcome)
  | [], _ => []
  | call :: rest, arena =>
    (call, ((perform call.operation).run arena).1) ::
      trace rest ((perform call.operation).run arena).2

/-- The arena after a run. -/
def afterCalls : List Call → Arena → Arena
  | [], arena => arena
  | call :: rest, arena => afterCalls rest ((perform call.operation).run arena).2

/-- The byte at an address, zero where there is no memory. -/
def byteAt (arena : Arena) (address : Nat) : UInt8 := (arena.memory.getD []).getD address 0

/-! ### Runs -/

namespace Represents

variable {arena : Arena} {heap : Heap}

/-- Every operation has the same outcome and keeps the blocks of the heap in the arena. -/
theorem run (h : arena.Represents heap) (hordered : heap.Ordered) (operation : Operation) :
    ((perform operation).run arena).1 = (operation.action.run heap).1 ∧
      ((perform operation).run arena).2.Represents (operation.action.run heap).2 := by
  cases operation with
  | allocate count =>
    obtain ⟨houtcome, hafter⟩ := h.allocate hordered count
    rw [perform, Operation.action, Action.run_map, Action.run_map, houtcome]
    exact ⟨rfl, hafter⟩
  | free address =>
    obtain ⟨houtcome, hafter⟩ := h.free hordered address
    rw [perform, Operation.action, Action.run_map, Action.run_map, houtcome]
    exact ⟨rfl, hafter⟩
  | read address count =>
    rw [perform, Operation.action, Action.run_reading, Action.run_reading, h.read hordered]
    exact ⟨rfl, h⟩
  | readString address =>
    rw [perform, Operation.action, Action.run_reading, Action.run_reading, h.readString hordered]
    exact ⟨rfl, h⟩
  | write address bytes =>
    obtain ⟨houtcome, hafter⟩ := h.write hordered address bytes
    rw [perform, Operation.action, Action.run_map, Action.run_map, houtcome]
    exact ⟨rfl, hafter⟩
  | close => exact ⟨rfl, h.close⟩

/-- An arena and the heap whose blocks it holds go through a run side by side. -/
theorem trace (h : arena.Represents heap) (hordered : heap.Ordered) (calls : List Call) :
    Arena.trace calls arena = Heap.trace calls heap ∧
      (Arena.afterCalls calls arena).Represents (Heap.afterCalls calls heap) := by
  induction calls generalizing arena heap with
  | nil => exact ⟨rfl, h⟩
  | cons call rest ih =>
    obtain ⟨houtcome, hafter⟩ := h.run hordered call.operation
    have hnext := hordered.run call.operation
    rw [call.action_operation] at houtcome hafter hnext
    obtain ⟨htrace, hlast⟩ := ih hafter hnext
    refine ⟨?_, hlast⟩
    rw [Arena.trace, Heap.trace, houtcome, htrace]

end Represents

/-- Whatever operations lead to, also behind the end of the memory's life: an arena holds the blocks
of the heap that they lead to. -/
theorem represents_afterOperations (capacity : Nat) (operations : List Operation) :
    (afterOperations operations (empty capacity)).Represents
      (Heap.afterOperations operations (Heap.empty capacity)) := by
  have hempty := Represents.empty capacity
  have hordered := Heap.ordered_empty capacity
  generalize empty capacity = arena, Heap.empty capacity = heap at hempty hordered
  induction operations generalizing arena heap with
  | nil => exact hempty
  | cons operation rest ih =>
    exact ih _ _ (hempty.run hordered operation).2 (hordered.run operation)

/-! ### What always holds -/

/-- The books are in order and agree with the memory. -/
structure Sound (arena : Arena) : Prop where
  /-- The memory is there, and as large as the capacity says. -/
  memory : ∃ memory, arena.memory = some memory ∧ memory.length = arena.capacity
  /-- Addresses are listed in rising order. -/
  rising : arena.starts.Pairwise (· < ·)
  /-- The space of a block ends before the next one starts. -/
  apart : arena.starts.Pairwise fun start later ↦
    start + Heap.footprint (arena.sizeAt start) ≤ later
  /-- No block is empty or starts at the address zero, and all start at multiples of the alignment
  and end before the top. -/
  placed : ∀ start ∈ arena.starts, start ≠ 0 ∧ Heap.alignment ∣ start ∧ 0 < arena.sizeAt start ∧
    start + Heap.footprint (arena.sizeAt start) ≤ arena.top
  /-- The memory has room for all blocks. -/
  room : arena.starts ≠ [] → arena.top ≤ arena.capacity
  /-- Live blocks are blocks. -/
  live_subset : arena.live ⊆ arena.starts
  /-- No block is live twice. -/
  nodup : arena.live.Nodup
  /-- All bytes from the top on are zero. -/
  zero : ∀ address, arena.top ≤ address → arena.byteAt address = 0

namespace Represents

variable {arena : Arena} {heap : Heap}

theorem mem_starts (h : arena.Represents heap) {start : Nat} :
    start ∈ arena.starts ↔ ∃ block ∈ heap.blocks, block.start = start := by
  rw [h.starts, List.mem_reverse, List.mem_map]

theorem byteAt (h : arena.Represents heap) (hopen : heap.closed = false) (address : Nat) :
    arena.byteAt address = (Heap.imageOf heap.blocks).getD address 0 := by
  rw [Arena.byteAt, h.memory_open hopen, Option.getD_some, Heap.image, Bytes.getD_padTo]

/-- The arena of a sound heap is sound. -/
theorem sound (h : arena.Represents heap) (hsound : heap.Sound) : arena.Sound where
  memory := ⟨heap.image, h.memory_open hsound.isOpen, h.capacity ▸ hsound.length_image⟩
  rising := h.starts ▸ hsound.stacked.pairwise_starts
  apart := by
    rw [h.starts, List.pairwise_reverse, List.pairwise_map]
    refine hsound.stacked.pairwise_apart.imp_of_mem fun {later block} _ hmem happart ↦ ?_
    rw [h.sizeAt hmem]
    exact happart
  placed := by
    intro start hstart
    obtain ⟨block, hmem, rfl⟩ := h.mem_starts.1 hstart
    obtain ⟨hlength, hfirst, haligned, hstop⟩ := hsound.stacked.of_mem hmem
    rw [h.sizeAt hmem, h.top]
    refine ⟨?_, haligned, hlength, hstop⟩
    unfold Heap.alignment at hfirst
    omega
  room := by
    intro hstarts
    rw [h.top, h.capacity]
    refine hsound.top_le fun hnil ↦ hstarts ?_
    rw [h.starts, hnil]
    rfl
  live_subset := by
    intro start hlive
    obtain ⟨block, hmem, _, hstart⟩ := (h.live start).1 hlive
    exact h.mem_starts.2 ⟨block, hmem, hstart⟩
  nodup := h.nodup
  zero := by
    intro address haddress
    have hlength := Heap.length_imageOf_le hsound.stacked
    rw [h.top] at haddress
    rw [h.byteAt hsound.isOpen, List.getD_eq_default _ _ (Nat.le_trans hlength haddress)]

end Represents

/-! ### The capacity -/

/-- Two arenas that differ at most in how much memory there is behind the top. -/
structure SameBooks (first second : Arena) : Prop where
  top : first.top = second.top
  starts : first.starts = second.starts
  sizeAt : ∀ start ∈ first.starts, first.sizeAt start = second.sizeAt start
  live : ∀ start, start ∈ first.live ↔ start ∈ second.live
  byteAt : ∀ address, first.byteAt address = second.byteAt address

/-- Arenas of heaps that differ at most in their capacities. -/
theorem Represents.sameBooks {first second : Arena} {firstHeap secondHeap : Heap}
    (hfirst : first.Represents firstHeap) (hsecond : second.Represents secondHeap)
    (hsame : firstHeap.SameBlocks secondHeap) (hopen : firstHeap.closed = false) :
    first.SameBooks second where
  top := by rw [hfirst.top, hsecond.top, hsame.top]
  starts := by rw [hfirst.starts, hsecond.starts, hsame.blocks]
  sizeAt := by
    intro start hstart
    obtain ⟨block, hmem, rfl⟩ := hfirst.mem_starts.1 hstart
    rw [hfirst.sizeAt hmem, hsecond.sizeAt (hsame.blocks ▸ hmem)]
  live := by
    intro start
    rw [hfirst.live, hsecond.live, hsame.blocks]
  byteAt := by
    intro address
    rw [hfirst.byteAt hopen, hsecond.byteAt (hsame.closed ▸ hopen), hsame.blocks]

/-! ### Refusals -/

/-- While the memory is there, a call that is refused changes nothing. -/
theorem run_refused {arena : Arena} (hsound : arena.Sound) {call : Call} {fault : Fault}
    (h : ((perform call.operation).run arena).1 = .error fault) :
    ((perform call.operation).run arena).2 = arena := by
  obtain ⟨memory, hmemory, _⟩ := hsound.memory
  cases call with
  | allocate count =>
    have hnegative : ¬ (count : Int) < 0 := by omega
    have hreserve (top : Nat) : ∃ after, reserve top arena = (.ok (), after) := by
      unfold reserve
      split
      · exact ⟨(grow top arena).2, by simp [grow, hmemory]⟩
      · exact ⟨arena, rfl⟩
    obtain ⟨after, hafter⟩ := hreserve (arena.top + Heap.footprint count)
    rw [Call.operation, perform, Action.run_map] at h
    simp only [Action.run, allocate, if_neg hnegative, Int.toNat_natCast, hafter] at h
    exact absurd h (by simp [Except.map])
  | free address =>
    rw [Call.operation, perform, Action.run_map] at h ⊢
    simp only [Action.run, free, hmemory] at h ⊢
    split at h
    · exact absurd h (by simp [Except.map])
    · next hlive => rw [if_neg hlive]
  | read | readString => rfl
  | write address bytes =>
    rw [Call.operation, perform, Action.run_map] at h ⊢
    simp only [Action.run, write, hmemory] at h ⊢
    split at h
    · rfl
    · exact absurd h (by simp [Except.map])

/-- An arena answers as a table of blocks does.

Along every run of calls on a new arena, each outcome is one that the table allows. The capacity the
arena starts with, and so how often the memory is copied to a larger place, changes no outcome, no
book and no byte. A call that is refused changes nothing. The books stay in order, and the bytes
from the top on stay zero. Assumes: reads and writes of at least one byte. -/
theorem trace_allowed (capacity : Nat) {calls : List Call} (hcalls : ∀ call ∈ calls, call.Proper) :
    let arena := afterCalls calls (empty capacity)
    BlockTable.empty.AllowsAll (trace calls (empty capacity)) ∧
      (∀ other, trace calls (empty other) = trace calls (empty capacity) ∧
        SameBooks (afterCalls calls (empty other)) arena) ∧
      (∀ (call : Call) (fault : Fault), ((perform call.operation).run arena).1 = .error fault →
        ((perform call.operation).run arena).2 = arena) ∧
      arena.Sound := by
  intro arena
  have hheap := Heap.sound_empty capacity
  have hafter := hheap.afterCalls calls
  obtain ⟨htrace, hrepresents⟩ := (Represents.empty capacity).trace hheap.ordered calls
  have hsound : arena.Sound := hrepresents.sound hafter
  refine ⟨?_, fun other ↦ ?_, fun call fault ↦ run_refused hsound, hsound⟩
  · rw [htrace]
    exact (BlockTable.Describes.empty capacity).trace_allows hheap hcalls
  · have hother := Heap.sound_empty other
    obtain ⟨hotherTrace, hotherRepresents⟩ := (Represents.empty other).trace hother.ordered calls
    have hsame : (Heap.empty other).SameBlocks (Heap.empty capacity) := ⟨rfl, rfl, rfl⟩
    obtain ⟨houtcomes, hblocks⟩ := hsame.run hother hheap calls
    refine ⟨by rw [hotherTrace, houtcomes, htrace], ?_⟩
    exact hotherRepresents.sameBooks hrepresents hblocks (hother.afterCalls calls).isOpen

/-- A run that copies the memory to a larger place, frees a block, reads from the freed block and
into the padding behind another, and looks for a string. -/
theorem trace_allowed_growing :
    (∀ call ∈ [Call.allocate 5, .write 8 [1, 2], .allocate 3, .free 8, .read 8 1, .read 18 2,
      .readString 16], call.Proper) ∧
    BlockTable.empty.AllowsAll (trace [Call.allocate 5, .write 8 [1, 2], .allocate 3, .free 8,
      .read 8 1, .read 18 2, .readString 16] (empty 9)) := by
  have hcalls : ∀ call ∈ [Call.allocate 5, .write 8 [1, 2], .allocate 3, .free 8, .read 8 1,
      .read 18 2, .readString 16], call.Proper := by
    simp [Call.Proper]
  exact ⟨hcalls, (trace_allowed 9 hcalls).1⟩

end Arena

end Stowage
