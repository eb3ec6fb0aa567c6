import Stowage.Proofs.Heap.BlockTable

/-!
# The life of a heap

`Operation` is anything that can be asked of a heap: what a `Call` asks, with any number of bytes,
and giving the memory back. Along every run from an empty heap the blocks stay one behind the other
(`ordered_empty`, `Ordered.run`), before the memory is given back and after it.

`Operation.closed_cases` says all that an operation can do to a heap that was closed: nothing, or
free a block while it refuses, or give out a block in the room that is left. So what is live after
closing is what was given out since then (`ClosedSince.isLive_afterOperations`), no address from
before is live again, and while no block fits every operation is refused (`closed_run`).
-/

set_option autoImplicit false

namespace Stowage.Heap

/-- An operation on a heap. -/
inductive Operation where
  | allocate (count : Int)
  | free (address : Int)
  | read (address count : Int)
  | readString (address : Int)
  | write (address : Int) (bytes : Bytes)
  | close

namespace Operation

/-- Runs an operation. -/
def action : Operation → Action Heap Answer
  | .allocate count => .address <$> Heap.allocate count
  | .free address => (fun _ ↦ .done) <$> Heap.free address
  | .read address count => .reading fun heap ↦ (heap.read address count).map .bytes
  | .readString address => .reading fun heap ↦ (heap.readString address).map .bytes
  | .write address bytes => (fun _ ↦ .done) <$> Heap.write address bytes
  | .close => (fun _ ↦ .done) <$> Action.update Heap.close

/-- Whether the operation uses memory, and asks for no negative number of bytes when it asks for a
block. -/
def UsesMemory : Operation → Prop
  | .allocate count => 0 ≤ count
  | .close => False
  | _ => True

end Operation

/-- The heap after operations. -/
def afterOperations : List Operation → Heap → Heap
  | [], heap => heap
  | operation :: rest, heap => afterOperations rest (operation.action.run heap).2

/-- The outcome is a refusal by the memory. -/
def Refused (outcome : Outcome) : Prop := ∃ cause, outcome = .error (.memory cause)

/-- The operations are refused by the memory, one after another. -/
def AllRefused : List Operation → Heap → Prop
  | [], _ => True
  | operation :: rest, heap =>
    Refused (operation.action.run heap).1 ∧ AllRefused rest (operation.action.run heap).2

variable {heap : Heap}

/-! ### Blocks stay in order -/

/-- The heap as if its memory had not been given back. -/
def reopened (heap : Heap) : Heap := { heap with closed := false }

theorem reopened_eq (hopen : heap.closed = false) : heap.reopened = heap := by
  rw [reopened, ← hopen]

/-- The blocks lie one behind the other with room for them all, whether or not the memory was given
back. -/
def Ordered (heap : Heap) : Prop := heap.reopened.Sound

theorem Sound.ordered (hsound : heap.Sound) : heap.Ordered := by
  rw [Ordered, reopened_eq hsound.isOpen]
  exact hsound

theorem Ordered.sound (h : heap.Ordered) (hopen : heap.closed = false) : heap.Sound := by
  rw [Ordered, reopened_eq hopen] at h
  exact h

theorem ordered_empty (capacity : Nat) : (empty capacity).Ordered := (sound_empty capacity).ordered

/-- Giving the memory back moves no block. -/
theorem Ordered.close (h : heap.Ordered) : heap.close.Ordered where
  isOpen := rfl
  stacked := h.stacked.map (fun _ _ ↦ rfl) (fun _ _ ↦ rfl)
  capacity_pos := h.capacity_pos
  top_le hblocks := h.top_le fun hnil ↦ hblocks (List.map_eq_nil_iff.2 hnil)

/-! ### Live blocks -/

theorem isLive_extend (data : Bytes) (address : Nat) :
    (heap.extend data).isLive address = true ↔ address = heap.top ∨ heap.isLive address = true := by
  simp [isLive_natCast, extend, eq_comm (a := heap.top)]

theorem liveCount_eq_zero_iff : heap.liveCount = 0 ↔ ∀ address, heap.isLive address = false := by
  rw [liveCount, List.length_eq_zero_iff, liveBlocks, List.filter_eq_nil_iff]
  constructor
  · intro hnone address
    refine Bool.eq_false_iff.2 fun hlive ↦ ?_
    obtain ⟨block, hmem, hblock, _⟩ := (isLive_iff address).1 hlive
    exact hnone block hmem hblock
  · intro hnone block hmem hblock
    exact Bool.false_ne_true ((hnone block.start).symm.trans
      ((isLive_iff _).2 ⟨block, hmem, hblock, rfl⟩))

/-- Closing leaves no block live. -/
theorem liveCount_close (heap : Heap) : heap.close.liveCount = 0 := by
  simp [liveCount, liveBlocks, close]

/-! ### Closed heaps -/

section Closed

variable (hclosed : heap.closed = true)

include hclosed

theorem read_closed (address count : Int) :
    ∃ cause, heap.read address count = .error (.memory cause) := by
  unfold read
  split
  · next hlocate =>
    obtain ⟨cause, rfl⟩ := locate_error hlocate
    exact ⟨cause, rfl⟩
  · exact ⟨.closed, if_pos hclosed⟩

theorem readString_closed (address : Int) :
    ∃ cause, heap.readString address = .error (.memory cause) := by
  unfold readString
  split
  · next hlocate =>
    obtain ⟨cause, rfl⟩ := locate_error hlocate
    exact ⟨cause, rfl⟩
  · exact ⟨.closed, if_pos hclosed⟩

theorem write_closed (address : Int) (bytes : Bytes) :
    ∃ cause, (write address bytes).run heap = (.error (.memory cause), heap) := by
  rcases hlocate : heap.locate address bytes.length with fault | block
  · obtain ⟨cause, rfl⟩ := locate_error hlocate
    exact ⟨cause, write_error hlocate⟩
  · exact ⟨.closed, by simp [Action.run, write, hlocate, hclosed]⟩

/-- What an operation does to a closed heap. It is refused and changes nothing; or it is refused
and frees a block; or it gives out a block, for which there is room. -/
theorem Operation.closed_cases {operation : Operation} (huses : operation.UsesMemory) :
    ((∃ cause, operation.action.run heap = (.error (.memory cause), heap)) ∧
      (∀ count, operation = .allocate count → heap.capacity < heap.top + footprint count.toNat) ∧
      ∀ address, operation = .free address → heap.isLive address = false) ∨
    (∃ address : Nat, operation = .free address ∧ heap.isLive address = true ∧
      operation.action.run heap = (.error (.memory .closed), heap.release [address])) ∨
    ∃ count : Nat, operation = .allocate count ∧ heap.top + footprint count ≤ heap.capacity ∧
      operation.action.run heap =
        (.ok (.address heap.top), heap.extend (Bytes.zeros (max count 1))) := by
  cases operation with
  | allocate count =>
    obtain ⟨count, rfl⟩ := Int.eq_ofNat_of_zero_le huses
    by_cases hroom : heap.top + footprint count ≤ heap.capacity
    · refine .inr (.inr ⟨count, rfl, hroom, ?_⟩)
      rw [action, Action.run_map, allocate_granted count fun _ ↦ hroom]
      rfl
    · have hfull := Nat.not_le.1 hroom
      refine .inl ⟨⟨.closed, ?_⟩, fun other hother ↦ ?_, by simp⟩
      · rw [action, Action.run_map, allocate_closed hclosed hfull]
        rfl
      · obtain rfl := Operation.allocate.inj hother
        exact hfull
  | free address =>
    by_cases hlive : heap.isLive address = true
    · obtain ⟨block, _, _, rfl⟩ := (isLive_iff address).1 hlive
      refine .inr (.inl ⟨block.start, rfl, hlive, ?_⟩)
      rw [action, Action.run_map, free_closed hclosed hlive]
      rfl
    · refine .inl ⟨⟨.notLive address, ?_⟩, by simp, fun other hother ↦ ?_⟩
      · rw [action, Action.run_map, free_error hlive]
        rfl
      · obtain rfl := Operation.free.inj hother
        exact Bool.eq_false_iff.2 hlive
  | read address count =>
    obtain ⟨cause, hread⟩ := read_closed hclosed address count
    exact .inl ⟨⟨cause, by rw [action, Action.run_reading, hread]; rfl⟩, by simp, by simp⟩
  | readString address =>
    obtain ⟨cause, hread⟩ := readString_closed hclosed address
    exact .inl ⟨⟨cause, by rw [action, Action.run_reading, hread]; rfl⟩, by simp, by simp⟩
  | write address bytes =>
    obtain ⟨cause, hwrite⟩ := write_closed hclosed address bytes
    exact .inl ⟨⟨cause, by rw [action, Action.run_map, hwrite]; rfl⟩, by simp, by simp⟩
  | close => exact absurd huses id

/-- A closed heap refuses an operation unless it asks for a block that fits. -/
theorem Operation.refused_iff (operation : Operation) (huses : operation.UsesMemory) :
    Refused (operation.action.run heap).1 ↔
      ∀ count, operation = .allocate count → heap.capacity < heap.top + footprint count.toNat := by
  rcases closed_cases hclosed huses with
    ⟨⟨cause, hrun⟩, hfull, _⟩ | ⟨freed, rfl, _, hrun⟩ | ⟨count, rfl, hroom, hrun⟩
  · rw [hrun]
    exact iff_of_true ⟨cause, rfl⟩ hfull
  · rw [hrun]
    exact iff_of_true ⟨.closed, rfl⟩ (by simp)
  · rw [hrun]
    refine iff_of_false (fun ⟨cause, hcause⟩ ↦ absurd hcause (by simp)) fun hfull ↦ ?_
    exact absurd hroom (Nat.not_le.2 (hfull count rfl))

end Closed

/-- Every operation keeps the blocks in order. -/
theorem Ordered.run (h : heap.Ordered) (operation : Operation) :
    (operation.action.run heap).2.Ordered := by
  by_cases hnegative : ∃ count < 0, operation = .allocate count
  · obtain ⟨count, hcount, rfl⟩ := hnegative
    rw [Operation.action, Action.run_map, allocate_negative hcount]
    exact h
  by_cases hclose : operation = .close
  · subst hclose
    exact h.close
  have huses : operation.UsesMemory := by
    cases operation with
    | allocate count => exact Int.not_lt.1 fun hcount ↦ hnegative ⟨count, hcount, rfl⟩
    | close => exact hclose rfl
    | _ => exact trivial
  by_cases hclosed : heap.closed = true
  · rcases Operation.closed_cases hclosed huses with
      ⟨⟨_, hrun⟩, _⟩ | ⟨address, _, _, hrun⟩ | ⟨count, _, _, hrun⟩
    · rw [hrun]
      exact h
    · rw [hrun]
      exact Sound.release h [address]
    · rw [hrun]
      exact Sound.extend h (by rw [Bytes.length_zeros]; omega)
  · have hsound := h.sound (Bool.eq_false_iff.2 hclosed)
    -- the operations of an open heap are calls
    cases operation with
    | allocate count =>
      obtain ⟨count, rfl⟩ := Int.eq_ofNat_of_zero_le huses
      exact (hsound.call (.allocate count)).ordered
    | free address => exact (hsound.call (.free address)).ordered
    | write address bytes => exact (hsound.call (.write address bytes)).ordered
    | close => exact absurd huses id
    | read | readString => exact h

/-- The blocks stay in order. -/
theorem Ordered.afterOperations (h : heap.Ordered) (operations : List Operation) :
    (afterOperations operations heap).Ordered := by
  induction operations generalizing heap with
  | nil => exact h
  | cons operation rest ih => exact ih (h.run operation)

/-! ### What happens after closing -/

/-- The address was given out by one of the operations, and none behind it asks to free it. -/
inductive Held (address : Nat) : List Operation → Heap → Prop where
  /-- The first operation gives it out. -/
  | first {operation : Operation} {rest : List Operation} {heap : Heap}
      (hgiven : (operation.action.run heap).1 = .ok (.address address))
      (hkept : .free (address : Int) ∉ rest) : Held address (operation :: rest) heap
  /-- A later operation gives it out. -/
  | later {operation : Operation} {rest : List Operation} {heap : Heap}
      (hrest : Held address rest (operation.action.run heap).2) :
      Held address (operation :: rest) heap

theorem held_cons_iff {address : Nat} {operation : Operation} {rest : List Operation} :
    Held address (operation :: rest) heap ↔
      ((operation.action.run heap).1 = .ok (.address address) ∧ .free (address : Int) ∉ rest) ∨
        Held address rest (operation.action.run heap).2 := by
  constructor
  · rintro (⟨hgiven, hkept⟩ | hrest)
    · exact .inl ⟨hgiven, hkept⟩
    · exact .inr hrest
  · rintro (⟨hgiven, hkept⟩ | hrest)
    · exact .first hgiven hkept
    · exact .later hrest

/-- A heap that was closed before, and the first address it could give out since. -/
structure ClosedSince (limit top : Nat) (heap : Heap) : Prop where
  /-- The memory is not there. -/
  isClosed : heap.closed = true
  /-- The capacity is what it was. -/
  capacity_eq : heap.capacity = limit
  /-- The top does not fall. -/
  top_le : top ≤ heap.top
  /-- Blocks that are live were given out since. -/
  start_ge : ∀ block ∈ heap.blocks, block.live = true → top ≤ block.start

namespace ClosedSince

theorem close (heap : Heap) : heap.close.ClosedSince heap.capacity heap.top where
  isClosed := rfl
  capacity_eq := rfl
  top_le := Nat.le_refl _
  start_ge block hmem hlive := by
    obtain ⟨_, _, rfl⟩ := List.mem_map.1 hmem
    exact absurd hlive Bool.false_ne_true

variable {limit top : Nat} {operation : Operation}

/-- An operation keeps a heap closed. -/
theorem run (h : heap.ClosedSince limit top) (huses : operation.UsesMemory) :
    (operation.action.run heap).2.ClosedSince limit top := by
  rcases Operation.closed_cases h.isClosed huses with
    ⟨⟨_, hrun⟩, _⟩ | ⟨address, _, _, hrun⟩ | ⟨count, _, hroom, hrun⟩
  · rw [hrun]
    exact h
  · rw [hrun]
    refine ⟨h.isClosed, h.capacity_eq, h.top_le, fun block hmem hlive ↦ ?_⟩
    obtain ⟨older, holder, rfl⟩ := List.mem_map.1 hmem
    rw [Block.releaseIf_start]
    exact h.start_ge older holder ((Block.releaseIf_live _ _).1 hlive).1
  · rw [hrun]
    refine ⟨h.isClosed, ?_, Nat.le_trans h.top_le (Nat.le_add_right _ _), fun block hmem hlive ↦ ?_⟩
    · rw [← h.capacity_eq]
      refine grown_of_le ?_
      rw [Bytes.length_zeros, footprint_max_one]
      exact hroom
    · rcases List.mem_cons.1 hmem with rfl | holder
      · exact h.top_le
      · exact h.start_ge block holder hlive

theorem afterOperations (h : heap.ClosedSince limit top) {operations : List Operation}
    (huses : ∀ operation ∈ operations, operation.UsesMemory) :
    (afterOperations operations heap).ClosedSince limit top := by
  induction operations generalizing heap with
  | nil => exact h
  | cons operation rest ih =>
    obtain ⟨hfirst, hrest⟩ := List.forall_mem_cons.1 huses
    exact ih (h.run hfirst) hrest

/-- An operation on a closed heap takes a block out of the live ones when it asks to free it, and
adds the one that it gives out. -/
theorem isLive_run (h : heap.ClosedSince limit top) (huses : operation.UsesMemory)
    (address : Nat) :
    (operation.action.run heap).2.isLive address = true ↔
      (heap.isLive address = true ∧ operation ≠ .free address) ∨
        (operation.action.run heap).1 = .ok (.address address) := by
  rcases Operation.closed_cases h.isClosed huses with
    ⟨⟨_, hrun⟩, _, hnone⟩ | ⟨freed, rfl, _, hrun⟩ | ⟨count, rfl, _, hrun⟩
  · rw [hrun, or_iff_left (by simp), iff_self_and]
    rintro hlive rfl
    exact Bool.false_ne_true ((hnone address rfl).symm.trans hlive)
  · rw [hrun, or_iff_left (by simp), isLive_release, List.mem_singleton, ne_eq,
      Operation.free.injEq, Int.natCast_inj, eq_comm (a := address)]
  · rw [hrun, isLive_extend, and_iff_left (by simp), or_comm, Except.ok.injEq,
      Answer.address.injEq, eq_comm (a := address)]

/-- What is live after operations on a closed heap was live before and no operation asks to free
it, or it is held since. -/
theorem isLive_afterOperations (h : heap.ClosedSince limit top) {operations : List Operation}
    (huses : ∀ operation ∈ operations, operation.UsesMemory) (address : Nat) :
    (Heap.afterOperations operations heap).isLive address = true ↔
      (heap.isLive address = true ∧ .free (address : Int) ∉ operations) ∨
        Held address operations heap := by
  induction operations generalizing heap with
  | nil =>
    have hnone : ¬ Held address [] heap := nofun
    simp [Heap.afterOperations, hnone]
  | cons operation rest ih =>
    obtain ⟨hfirst, hrest⟩ := List.forall_mem_cons.1 huses
    rw [Heap.afterOperations, ih (h.run hfirst) hrest, h.isLive_run hfirst, held_cons_iff,
      List.mem_cons, not_or, or_and_right, or_assoc, and_assoc, ne_comm]

end ClosedSince

/-- On a closed heap without live blocks an operation is refused and changes nothing, unless it asks
for a block that fits. -/
theorem Operation.run_of_full {operation : Operation} (hclosed : heap.closed = true)
    (hnone : heap.liveCount = 0) (huses : operation.UsesMemory)
    (hfull : ∀ count, operation = .allocate count →
      heap.capacity < heap.top + footprint count.toNat) :
    ∃ cause, operation.action.run heap = (.error (.memory cause), heap) := by
  rcases closed_cases hclosed huses with
    ⟨hrun, _⟩ | ⟨freed, _, hlive, _⟩ | ⟨count, hallocate, hroom, _⟩
  · exact hrun
  · exact absurd hlive (Bool.eq_false_iff.1 (liveCount_eq_zero_iff.1 hnone _))
  · exact absurd hroom (Nat.not_le.2 (hfull count hallocate))

/-- Where no block fits, a closed heap stays as it is. -/
theorem afterOperations_of_full (hclosed : heap.closed = true) (hnone : heap.liveCount = 0)
    {operations : List Operation} (huses : ∀ operation ∈ operations, operation.UsesMemory)
    (hfull : ∀ count, .allocate count ∈ operations →
      heap.capacity < heap.top + footprint count.toNat) :
    afterOperations operations heap = heap := by
  induction operations with
  | nil => rfl
  | cons operation rest ih =>
    obtain ⟨hfirst, hrest⟩ := List.forall_mem_cons.1 huses
    obtain ⟨cause, hrun⟩ := Operation.run_of_full hclosed hnone hfirst fun count hcount ↦
      hfull count (hcount ▸ List.mem_cons_self)
    rw [afterOperations, hrun]
    exact ih hrest fun count hcount ↦ hfull count (List.mem_cons_of_mem _ hcount)

/-- A closed heap without live blocks refuses all operations exactly when none asks for a block that
fits. -/
theorem allRefused_iff (hclosed : heap.closed = true) (hnone : heap.liveCount = 0)
    {operations : List Operation} (huses : ∀ operation ∈ operations, operation.UsesMemory) :
    AllRefused operations heap ↔ ∀ count, .allocate count ∈ operations →
      heap.capacity < heap.top + footprint count.toNat := by
  induction operations with
  | nil => simp [AllRefused]
  | cons operation rest ih =>
    obtain ⟨hfirst, hrest⟩ := List.forall_mem_cons.1 huses
    have hmember : (∀ count, .allocate count ∈ operation :: rest →
          heap.capacity < heap.top + footprint count.toNat) ↔
        (∀ count, operation = .allocate count →
          heap.capacity < heap.top + footprint count.toNat) ∧
        ∀ count, .allocate count ∈ rest → heap.capacity < heap.top + footprint count.toNat := by
      simp only [List.mem_cons, or_imp, forall_and, eq_comm]
    rw [AllRefused, hmember, operation.refused_iff hclosed hfirst, ← ih hrest]
    refine and_congr_right fun hfull ↦ ?_
    obtain ⟨cause, hrun⟩ := Operation.run_of_full hclosed hnone hfirst hfull
    rw [hrun]

/-- A closed heap gives out at most the room that was left.

After any operations and closing, the memory stays away and the capacity stays as it is. A further
operation is refused, unless it asks for a block that fits in the room that is left; such a block is
given out. No address that was given out before closing is live again, and what is live was given
out since and nobody asked to free it. So all operations are refused exactly when none asks for a
block that fits, and then no address is live. Assumes: operations that use memory, and no block of a
negative size. -/
theorem closed_run (capacity : Nat) (earlier : List Operation) {later : List Operation}
    {next : Operation} (hlater : ∀ operation ∈ later, operation.UsesMemory)
    (hnext : next.UsesMemory) :
    let closed := (afterOperations earlier (empty capacity)).close
    let heap := afterOperations later closed
    (heap.closed = true ∧ heap.capacity = closed.capacity) ∧
    (Refused (next.action.run heap).1 ↔ ∀ count, next = .allocate count →
      heap.capacity < heap.top + footprint count.toNat) ∧
    (¬ Refused (next.action.run heap).1 → (next.action.run heap).1 = .ok (.address heap.top)) ∧
    (∀ block ∈ closed.blocks, heap.isLive block.start = false) ∧
    (∀ address : Nat, heap.isLive address = true ↔ Held address later closed) ∧
    (AllRefused later closed ↔ ∀ count, .allocate count ∈ later →
      closed.capacity < closed.top + footprint count.toNat) ∧
    (AllRefused later closed → heap.liveCount = 0 ∧ ∀ address, heap.isLive address = false) := by
  intro closed heap
  have hclosed := ClosedSince.close (afterOperations earlier (empty capacity))
  have hsince := hclosed.afterOperations hlater
  have hnone : closed.liveCount = 0 := liveCount_close _
  have hall := allRefused_iff hclosed.isClosed hnone hlater
  refine ⟨⟨hsince.isClosed, hsince.capacity_eq⟩, next.refused_iff hsince.isClosed hnext,
    fun hgranted ↦ ?_, fun block hblock ↦ ?_, fun address ↦ ?_, hall, fun hrefused ↦ ?_⟩
  · rcases Operation.closed_cases hsince.isClosed hnext with
      ⟨⟨cause, hrun⟩, _⟩ | ⟨_, _, _, hrun⟩ | ⟨_, _, _, hrun⟩
    · exact absurd ⟨cause, congrArg Prod.fst hrun⟩ hgranted
    · exact absurd ⟨.closed, congrArg Prod.fst hrun⟩ hgranted
    · exact congrArg Prod.fst hrun
  · have hordered := ((ordered_empty capacity).afterOperations earlier).close
    have hlt : block.start < closed.top := hordered.stacked.start_lt hblock
    refine Bool.eq_false_iff.2 fun hlive ↦ ?_
    obtain ⟨other, hother, hotherLive, hstart⟩ := (isLive_natCast _).1 hlive
    have hge := hsince.start_ge other hother hotherLive
    exact absurd hlt (Nat.not_lt.2 (hstart ▸ hge))
  · rw [hclosed.isLive_afterOperations hlater, or_iff_right]
    exact fun ⟨hlive, _⟩ ↦
      Bool.false_ne_true ((liveCount_eq_zero_iff.1 hnone _).symm.trans hlive)
  · have hsame : heap = closed :=
      afterOperations_of_full hclosed.isClosed hnone hlater (hall.1 hrefused)
    rw [hsame]
    exact ⟨hnone, liveCount_eq_zero_iff.1 hnone⟩

/-- A full heap that is closed refuses to write, to give out a block, and to free one. -/
theorem closed_run_full :
    (∀ operation ∈ [Operation.write 8 [1], .allocate 0, .free 8], operation.UsesMemory) ∧
    (Operation.read 8 (-4)).UsesMemory ∧
    let closed := (afterOperations [.allocate 8] (empty 16)).close
    AllRefused [.write 8 [1], .allocate 0, .free 8] closed ∧
      (afterOperations [.write 8 [1], .allocate 0, .free 8] closed).liveCount = 0 := by
  have hlater : ∀ operation ∈ [Operation.write 8 [1], .allocate 0, .free 8],
      operation.UsesMemory := by
    simp [Operation.UsesMemory]
  have hnext : (Operation.read 8 (-4)).UsesMemory := trivial
  obtain ⟨_, _, _, _, _, hall, hnone⟩ := closed_run 16 [.allocate 8] hlater hnext
  have hrefused := hall.2 fun count hcount ↦ by
    obtain rfl : count = 0 := by simpa using hcount
    decide +kernel
  exact ⟨hlater, hnext, hrefused, (hnone hrefused).1⟩

/-- A heap that gave out no block before it was closed gives one out afterwards. -/
theorem closed_gives_out :
    let closed := (afterOperations [] (empty 64)).close
    let given := (Operation.allocate 8).action.run closed
    (Operation.allocate 8).UsesMemory ∧ given.1 = .ok (.address 8) ∧ ¬ Refused given.1 ∧
      given.2.isLive 8 = true ∧ given.2.liveCount = 1 := by
  intro closed given
  have hgiven : given.1 = .ok (.address 8) := rfl
  refine ⟨by simp [Operation.UsesMemory], hgiven, ?_, rfl, rfl⟩
  rintro ⟨cause, hcause⟩
  exact absurd (hgiven.symm.trans hcause) (by simp)

end Stowage.Heap
