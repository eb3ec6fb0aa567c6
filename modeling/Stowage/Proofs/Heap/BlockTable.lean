import Stowage.Proofs.Bytes
import Stowage.Proofs.Heap.Image

/-!
# The heap as a table of blocks

A block table is what a client may know about a heap: the extents of all blocks ever given out,
which of them are live, and the byte last written to every address. It has no order of blocks, no
top and no capacity. `BlockTable.Allows` says which outcomes of a call are right, and
`BlockTable.after` what the table becomes.

Along every run of calls each outcome is one that the table allows (`Describes.trace_allows`). The
heap looks only at the last block that starts at or before an address, while the table asks for any
live block that holds the access; that these agree rests on the order of the blocks. A capacity
changes no outcome (`SameBlocks.run`).
-/

set_option autoImplicit false

namespace Stowage

/-! ### Calls and outcomes -/

/-- A call to a heap. -/
inductive Heap.Call where
  | allocate (count : Nat)
  | free (address : Int)
  | read (address : Int) (count : Nat)
  | readString (address : Int)
  | write (address : Int) (bytes : Bytes)

/-- What a heap answers. -/
inductive Heap.Answer where
  | address (start : Nat)
  | bytes (bytes : Bytes)
  | done

/-- An answer, or a fault. -/
abbrev Heap.Outcome := Except Fault Heap.Answer

namespace Heap

/-- Runs a call. -/
def Call.action : Call → Action Heap Answer
  | .allocate count => .address <$> Heap.allocate count
  | .free address => (fun _ ↦ .done) <$> Heap.free address
  | .read address count => .reading fun heap ↦ (heap.read address count).map .bytes
  | .readString address => .reading fun heap ↦ (heap.readString address).map .bytes
  | .write address bytes => (fun _ ↦ .done) <$> Heap.write address bytes

/-- Whether the call reads or writes at least one byte, if it says how many. -/
def Call.Proper : Call → Prop
  | .read _ count => 0 < count
  | .write _ bytes => bytes ≠ []
  | _ => True

/-- The calls of a run with their outcomes. -/
def trace : List Call → Heap → List (Call × Outcome)
  | [], _ => []
  | call :: rest, heap =>
    (call, (call.action.run heap).1) :: trace rest (call.action.run heap).2

/-- The heap after a run. -/
def afterCalls : List Call → Heap → Heap
  | [], heap => heap
  | call :: rest, heap => afterCalls rest (call.action.run heap).2

/-- Every call keeps a heap sound. -/
theorem Sound.call {heap : Heap} (hsound : heap.Sound) (call : Call) :
    (call.action.run heap).2.Sound := by
  cases call with
  | allocate count =>
    rw [Call.action, Action.run_map, allocate_eq hsound]
    exact hsound.extend (by rw [Bytes.length_zeros]; omega)
  | free address =>
    rw [Call.action, Action.run_map]
    exact hsound.free address
  | read address count => exact hsound
  | readString address => exact hsound
  | write address bytes =>
    rw [Call.action, Action.run_map]
    exact hsound.write address bytes

theorem Sound.afterCalls {heap : Heap} (hsound : heap.Sound) (calls : List Call) :
    (afterCalls calls heap).Sound := by
  induction calls generalizing heap with
  | nil => exact hsound
  | cons call rest ih => exact ih (hsound.call call)

end Heap

/-! ### The table -/

/-- A run of addresses. -/
structure Extent where
  /-- The first address. -/
  start : Nat
  /-- The number of addresses. -/
  length : Nat
  deriving DecidableEq, Repr

/-- Whether an access of `count` bytes lies in the extent. -/
def Extent.Holds (extent : Extent) (address : Int) (count : Nat) : Prop :=
  (extent.start : Int) ≤ address ∧ address + count ≤ extent.start + extent.length

instance (extent : Extent) (address : Int) (count : Nat) :
    Decidable (extent.Holds address count) :=
  inferInstanceAs (Decidable (_ ∧ _))

/-- Whether two extents share no address. -/
def Extent.Apart (first second : Extent) : Prop :=
  first.start + first.length ≤ second.start ∨ second.start + second.length ≤ first.start

/-- The extent of a block. -/
def Block.extent (block : Block) : Extent := ⟨block.start, block.data.length⟩

/-- What a client may know about a heap. -/
structure BlockTable where
  /-- The extents of all blocks ever given out. -/
  issued : List Extent
  /-- The extents of the live blocks. -/
  live : List Extent
  /-- The byte last written to an address. -/
  byteAt : Nat → UInt8

namespace BlockTable

open Heap (Call Answer Outcome)

/-- The table of a heap that gave out no block. -/
def empty : BlockTable := ⟨[], [], fun _ ↦ 0⟩

/-- The bytes from an address on. -/
def cut (table : BlockTable) (start count : Nat) : Bytes :=
  (List.range count).map fun i ↦ table.byteAt (start + i)

/-- Whether an access of `count` bytes lies in one live block. -/
def Holds (table : BlockTable) (address : Int) (count : Nat) : Prop :=
  ∃ extent ∈ table.live, extent.Holds address count

/-- Whether a live block starts at an address. -/
def StartsAt (table : BlockTable) (address : Int) : Prop :=
  ∃ extent ∈ table.live, (extent.start : Int) = address

/-- Whether a string of `count` bytes and the zero byte behind it lie at an address in one live
block. -/
def HoldsString (table : BlockTable) (address : Int) (count : Nat) : Prop :=
  table.Holds address (count + 1) ∧ table.byteAt (address.toNat + count) = 0 ∧
    ∀ i < count, table.byteAt (address.toNat + i) ≠ 0

/-- Whether the outcome is the answer when the call is granted, and a fault of memory otherwise. -/
def Decides (granted : Prop) (answer : Answer) (outcome : Outcome) : Prop :=
  (granted → outcome = .ok answer) ∧ (¬ granted → ∃ cause, outcome = .error (.memory cause))

/-- Whether an outcome of a call is right. -/
def Allows (table : BlockTable) : Call → Outcome → Prop
  | .allocate count, outcome =>
    ∃ start, outcome = .ok (.address start) ∧ start ≠ 0 ∧ 8 ∣ start ∧
      ∀ extent ∈ table.issued, extent.Apart ⟨start, max count 1⟩
  | .free address, outcome => Decides (table.StartsAt address) .done outcome
  | .read address count, outcome =>
    Decides (table.Holds address count) (.bytes (table.cut address.toNat count)) outcome
  | .readString address, outcome =>
    (∀ count, table.HoldsString address count →
      outcome = .ok (.bytes (table.cut address.toNat count))) ∧
    ((∀ count, ¬ table.HoldsString address count) → ∃ cause, outcome = .error (.memory cause))
  | .write address bytes, outcome => Decides (table.Holds address bytes.length) .done outcome

/-- The table with one more live block, full of zero bytes. -/
def issue (table : BlockTable) (extent : Extent) : BlockTable where
  issued := extent :: table.issued
  live := extent :: table.live
  byteAt address := if extent.Holds address 1 then 0 else table.byteAt address

theorem byteAt_issue (table : BlockTable) (extent : Extent) (address : Nat) :
    (table.issue extent).byteAt address =
      if extent.Holds address 1 then 0 else table.byteAt address := rfl

/-- The table without the live block that starts at an address. -/
def drop (table : BlockTable) (address : Int) : BlockTable :=
  { table with live := table.live.filter fun extent ↦ (extent.start : Int) ≠ address }

/-- The table with bytes written from an address on. -/
def put (table : BlockTable) (start : Nat) (bytes : Bytes) : BlockTable :=
  { table with
    byteAt := fun address ↦
      if start ≤ address then bytes[address - start]?.getD (table.byteAt address)
      else table.byteAt address }

theorem byteAt_put (table : BlockTable) (start : Nat) (bytes : Bytes) (address : Nat) :
    (table.put start bytes).byteAt address =
      if start ≤ address then bytes[address - start]?.getD (table.byteAt address)
      else table.byteAt address := rfl

/-- The table after a call with the given outcome. A call that is refused changes nothing. -/
def after (table : BlockTable) : Call → Outcome → BlockTable
  | .allocate count, .ok (.address start) => table.issue ⟨start, max count 1⟩
  | .free address, .ok _ => table.drop address
  | .write address bytes, .ok _ => table.put address.toNat bytes
  | _, _ => table

/-- Whether every outcome of a run is right. -/
def AllowsAll : BlockTable → List (Call × Outcome) → Prop
  | _, [] => True
  | table, (call, outcome) :: rest =>
    table.Allows call outcome ∧ (table.after call outcome).AllowsAll rest

end BlockTable

/-! ### The heap and its table -/

/-- A table says the truth about a heap. -/
structure BlockTable.Describes (table : BlockTable) (heap : Heap) : Prop where
  /-- The extents given out are those of the blocks. -/
  issued : ∀ extent, extent ∈ table.issued ↔ ∃ block ∈ heap.blocks, block.extent = extent
  /-- The live extents are those of the live blocks. -/
  live : ∀ extent, extent ∈ table.live ↔
    ∃ block ∈ heap.blocks, block.live = true ∧ block.extent = extent
  /-- The bytes of live blocks are those of the table. -/
  byteAt : ∀ block ∈ heap.blocks, block.live = true → ∀ i < block.data.length,
    block.data[i]? = some (table.byteAt (block.start + i))

namespace BlockTable.Describes

open Heap (Call Answer Outcome)

variable {table : BlockTable} {heap : Heap}

theorem empty (capacity : Nat) : BlockTable.empty.Describes (Heap.empty capacity) where
  issued := by simp [BlockTable.empty, Heap.empty]
  live := by simp [BlockTable.empty, Heap.empty]
  byteAt := by simp [Heap.empty]

/-- An access lies in a live extent exactly when the heap grants it. -/
theorem holds_iff (h : table.Describes heap) (hsound : heap.Sound) {address : Int} {count : Nat}
    (hcount : 0 < count) :
    table.Holds address count ↔ ∃ block, heap.locate address count = .ok block := by
  simp only [hsound.locate_eq_ok_iff (Int.natCast_pos.2 hcount)]
  constructor
  · rintro ⟨extent, hextent, hstart, hstop⟩
    obtain ⟨block, hmem, hlive, rfl⟩ := (h.live extent).1 hextent
    exact ⟨block, hmem, hlive, hstart, by simpa [Block.stop, Block.extent] using hstop⟩
  · rintro ⟨block, hmem, hlive, hstart, hstop⟩
    exact ⟨block.extent, (h.live _).2 ⟨block, hmem, hlive, rfl⟩, hstart,
      by simpa [Block.stop, Block.extent] using hstop⟩

theorem startsAt_iff (h : table.Describes heap) {address : Int} :
    table.StartsAt address ↔ heap.isLive address = true := by
  rw [Heap.isLive_iff]
  constructor
  · rintro ⟨extent, hextent, hstart⟩
    obtain ⟨block, hmem, hlive, rfl⟩ := (h.live extent).1 hextent
    exact ⟨block, hmem, hlive, hstart⟩
  · rintro ⟨block, hmem, hlive, hstart⟩
    exact ⟨block.extent, (h.live _).2 ⟨block, hmem, hlive, rfl⟩, hstart⟩

/-- A cut of the table inside a live block is a cut of the block. -/
theorem cut_eq (h : table.Describes heap) {block : Block} (hmem : block ∈ heap.blocks)
    (hlive : block.live = true) {start count : Nat} (hstart : block.start ≤ start)
    (hstop : start + count ≤ block.stop) :
    table.cut start count = (block.data.drop (start - block.start)).take count := by
  unfold Block.stop at hstop
  apply List.ext_getElem?
  intro i
  unfold BlockTable.cut
  by_cases hi : i < count
  · have hbyte := h.byteAt block hmem hlive (start - block.start + i) (by omega)
    have haddress : block.start + (start - block.start + i) = start + i := by omega
    rw [List.getElem?_take_of_lt hi, List.getElem?_drop, hbyte, haddress, List.getElem?_map,
      List.getElem?_range hi, Option.map_some]
  · rw [List.getElem?_eq_none (by simpa using hi), List.getElem?_eq_none]
    rw [List.length_take]
    omega

/-! ### One call -/

theorem allocate (h : table.Describes heap) (hsound : heap.Sound) (count : Nat) :
    table.Allows (.allocate count) ((Call.allocate count).action.run heap).1 ∧
      (table.after (.allocate count) ((Call.allocate count).action.run heap).1).Describes
        ((Call.allocate count).action.run heap).2 := by
  have hrun : (Call.allocate count).action.run heap =
      (.ok (.address heap.top), heap.extend (Bytes.zeros (max count 1))) := by
    rw [Call.action, Action.run_map, Heap.allocate_eq hsound]
    rfl
  rw [hrun]
  constructor
  · have htop := hsound.stacked.alignment_le
    refine ⟨heap.top, rfl, ?_, hsound.stacked.alignment_dvd, ?_⟩
    · unfold Heap.alignment at htop
      omega
    · intro extent hextent
      obtain ⟨block, hmem, rfl⟩ := (h.issued extent).1 hextent
      exact .inl (hsound.stacked.stop_le hmem)
  · have hblocks : (heap.extend (Bytes.zeros (max count 1))).blocks =
        ⟨heap.top, Bytes.zeros (max count 1), true⟩ :: heap.blocks := rfl
    refine ⟨?_, ?_, ?_⟩
    · intro extent
      simp only [BlockTable.after, issue, hblocks, List.mem_cons, h.issued, exists_eq_or_imp]
      exact or_congr_left (by simp [Block.extent, eq_comm])
    · intro extent
      simp only [BlockTable.after, issue, hblocks, List.mem_cons, h.live, exists_eq_or_imp]
      exact or_congr_left (by simp [Block.extent, eq_comm])
    · intro block hmem hlive i hi
      rw [hblocks] at hmem
      rcases List.mem_cons.1 hmem with rfl | hmem
      · rw [Bytes.length_zeros] at hi
        have hholds : (Extent.mk heap.top (max count 1)).Holds ((heap.top + i : Nat) : Int) 1 := by
          constructor <;> dsimp only <;> omega
        rw [BlockTable.after, byteAt_issue, if_pos hholds]
        simp [Bytes.zeros, hi]
      · have hstop := hsound.stacked.stop_le hmem
        unfold Block.stop at hstop
        have hholds :
            ¬ (Extent.mk heap.top (max count 1)).Holds ((block.start + i : Nat) : Int) 1 := by
          rintro ⟨hstart, _⟩
          dsimp only at hstart
          omega
        rw [BlockTable.after, byteAt_issue, if_neg hholds]
        exact h.byteAt block hmem hlive i hi

theorem free (h : table.Describes heap) (hsound : heap.Sound) (address : Int) :
    table.Allows (.free address) ((Call.free address).action.run heap).1 ∧
      (table.after (.free address) ((Call.free address).action.run heap).1).Describes
        ((Call.free address).action.run heap).2 := by
  by_cases hlive : heap.isLive address = true
  · obtain ⟨block, hmem, hblock, rfl⟩ := (Heap.isLive_iff address).1 hlive
    have hrun : (Call.free (block.start : Int)).action.run heap =
        (.ok .done, heap.release [block.start]) := by
      rw [Call.action, Action.run_map, Heap.free_eq hsound hlive]
      rfl
    rw [hrun]
    refine ⟨⟨fun _ ↦ rfl, fun hnot ↦ absurd (h.startsAt_iff.2 hlive) hnot⟩, ?_, ?_, ?_⟩
    · intro extent
      simp [BlockTable.after, BlockTable.drop, h.issued, Heap.release, Block.extent]
    · intro extent
      simp only [BlockTable.after, BlockTable.drop, List.mem_filter, h.live, Heap.release,
        List.mem_map, ne_eq, decide_eq_true_eq]
      constructor
      · rintro ⟨⟨other, hother, hotherLive, rfl⟩, hne⟩
        have hnot : other.start ∉ [block.start] := by
          simpa [Block.extent, Int.natCast_inj] using hne
        exact ⟨_, ⟨other, hother, rfl⟩, (Block.releaseIf_live _ _).2 ⟨hotherLive, hnot⟩,
          by rw [Block.releaseIf_of_not_mem hnot]⟩
      · rintro ⟨_, ⟨other, hother, rfl⟩, hotherLive, rfl⟩
        obtain ⟨hotherLive, hnot⟩ := (Block.releaseIf_live _ _).1 hotherLive
        rw [Block.releaseIf_of_not_mem hnot]
        exact ⟨⟨other, hother, hotherLive, rfl⟩,
          by simpa [Block.extent, Int.natCast_inj] using hnot⟩
    · intro other hother hotherLive i hi
      obtain ⟨old, hold, rfl⟩ := List.mem_map.1 hother
      obtain ⟨holdLive, hnot⟩ := (Block.releaseIf_live _ _).1 hotherLive
      rw [Block.releaseIf_of_not_mem hnot] at hi ⊢
      exact h.byteAt old hold holdLive i hi
  · have hrun : (Call.free address).action.run heap =
        (.error (.memory (.notLive address)), heap) := by
      rw [Call.action, Action.run_map, Heap.free_error hlive]
      rfl
    rw [hrun]
    refine ⟨⟨fun hstarts ↦ absurd (h.startsAt_iff.1 hstarts) hlive, fun _ ↦ ⟨_, rfl⟩⟩, h⟩

theorem read (h : table.Describes heap) (hsound : heap.Sound) (address : Int) {count : Nat}
    (hcount : 0 < count) :
    table.Allows (.read address count) ((Call.read address count).action.run heap).1 := by
  have hrun : ((Call.read address count).action.run heap).1 =
      (heap.read address count).map .bytes := rfl
  rw [hrun]
  constructor
  · intro hholds
    obtain ⟨block, hlocate⟩ := (h.holds_iff hsound hcount).1 hholds
    obtain ⟨hmem, hlive, hstart, hstop⟩ := Heap.locate_eq_ok hlocate
    have hneg : ¬ (count : Int) < 0 := by omega
    have hoffset : (address - block.start).toNat = address.toNat - block.start := by omega
    rw [h.cut_eq hmem hlive (by omega) (by omega), ← hoffset]
    simp [Heap.read, hlocate, hsound.isOpen, hneg, Except.map]
  · intro hnot
    rcases hlocate : heap.locate address count with fault | block
    · obtain ⟨cause, rfl⟩ := Heap.locate_error hlocate
      exact ⟨cause, by simp [Heap.read, hlocate, Except.map]⟩
    · exact absurd ((h.holds_iff hsound hcount).2 ⟨block, hlocate⟩) hnot

/-- A cut of the table holds a byte of the table at every place. -/
theorem mem_cut {table : BlockTable} {start count : Nat} {b : UInt8}
    (h : b ∈ table.cut start count) :
    ∃ i < count, b = table.byteAt (start + i) := by
  obtain ⟨i, hi, rfl⟩ := List.mem_map.1 h
  exact ⟨i, List.mem_range.1 hi, rfl⟩

/-- The contents of a live block from an address on are a cut of the table. -/
theorem drop_eq_cut (h : table.Describes heap) {block : Block} (hmem : block ∈ heap.blocks)
    (hlive : block.live = true) {start : Nat} (hstart : block.start ≤ start) :
    block.data.drop (start - block.start) = table.cut start (block.stop - start) := by
  by_cases hstop : start ≤ block.stop
  · rw [h.cut_eq hmem hlive hstart (by omega), List.take_of_length_le]
    rw [List.length_drop]
    unfold Block.stop
    omega
  · have hnone : block.stop - start = 0 := by omega
    rw [hnone, List.drop_of_length_le]
    · rfl
    · unfold Block.stop at hstop
      omega

theorem getElem?_cut (table : BlockTable) (start count i : Nat) :
    (table.cut start count)[i]? = if i < count then some (table.byteAt (start + i)) else none := by
  unfold BlockTable.cut
  by_cases hi : i < count
  · simp [hi]
  · simp [hi]

/-- A cut of the table that starts with a string and a zero byte. -/
theorem cut_eq_append_iff (table : BlockTable) {start length : Nat} {text rest : Bytes}
    (h : table.cut start length = text ++ 0 :: rest) :
    table.cut start text.length = text ∧ table.byteAt (start + text.length) = 0 ∧
      text.length < length := by
  have hlength : text.length < length := by
    have := congrArg List.length h
    simp only [BlockTable.cut, List.length_map, List.length_range, List.length_append,
      List.length_cons] at this
    omega
  refine ⟨?_, ?_, hlength⟩
  · apply List.ext_getElem?
    intro i
    have hi := congrArg (·[i]?) h
    simp only [getElem?_cut] at hi ⊢
    by_cases hlt : i < text.length
    · rw [if_pos (by omega), List.getElem?_append_left hlt] at hi
      rw [if_pos hlt, hi]
    · rw [if_neg hlt, List.getElem?_eq_none (by omega)]
  · have hi := congrArg (·[text.length]?) h
    simp only [getElem?_cut, if_pos hlength] at hi
    simpa using hi

/-- The heap finds a string exactly when the table holds one. -/
theorem readString_eq_ok_iff (h : table.Describes heap) (hsound : heap.Sound) {address : Int}
    {bytes : Bytes} :
    heap.readString address = .ok bytes ↔
      table.HoldsString address bytes.length ∧ bytes = table.cut address.toNat bytes.length := by
  constructor
  · intro hread
    obtain ⟨block, hlocate, hzero, hbytes⟩ := Heap.readString_eq_ok hread
    obtain ⟨hmem, hlive, hstart, hstop⟩ := Heap.locate_eq_ok hlocate
    have hoffset : (address - block.start).toNat = address.toNat - block.start := by omega
    rw [hoffset] at hzero hbytes
    obtain ⟨rest, hsplit⟩ := Bytes.untilNul_append_cons hzero
    rw [← hbytes, h.drop_eq_cut hmem hlive (by omega)] at hsplit
    obtain ⟨hcut, hnul, hlength⟩ := cut_eq_append_iff table hsplit
    refine ⟨⟨⟨block.extent, (h.live _).2 ⟨block, hmem, hlive, rfl⟩, ?_⟩, hnul, ?_⟩, hcut.symm⟩
    · constructor
      · exact hstart
      · change _ ≤ (block.start : Int) + block.data.length
        unfold Block.stop at hlength
        omega
    · intro i hi
      have hmem : table.byteAt (address.toNat + i) ∈ bytes := by
        rw [← hcut]
        exact List.mem_map_of_mem (List.mem_range.2 hi)
      exact Bytes.ne_zero_of_mem_untilNul (hbytes ▸ hmem)
  · rintro ⟨⟨hextent, hnul, hbefore⟩, hbytes⟩
    obtain ⟨block, hlocate⟩ := (h.holds_iff hsound (Nat.succ_pos _)).1 hextent
    obtain ⟨hmem, hlive, hstart, hstop⟩ := Heap.locate_eq_ok hlocate
    have hoffset : (address - block.start).toNat = address.toNat - block.start := by omega
    have hdrop := h.drop_eq_cut hmem hlive (by omega : block.start ≤ address.toNat)
    have hsplit : table.cut address.toNat (block.stop - address.toNat) = bytes ++
        0 :: table.cut (address.toNat + bytes.length + 1)
          (block.stop - (address.toNat + bytes.length + 1)) := by
      apply List.ext_getElem?
      intro i
      rw [List.getElem?_append]
      by_cases hi : i < bytes.length
      · rw [if_pos hi, hbytes, getElem?_cut, getElem?_cut, if_pos (by omega), if_pos hi]
      · rw [if_neg hi]
        obtain ⟨k, rfl⟩ : ∃ k, i = bytes.length + k := ⟨i - bytes.length, by omega⟩
        rw [Nat.add_sub_cancel_left]
        cases k with
        | zero =>
          rw [getElem?_cut, if_pos (by omega), Nat.add_zero, hnul]
          rfl
        | succ k =>
          rw [List.getElem?_cons_succ, getElem?_cut, getElem?_cut]
          have hindex : address.toNat + (bytes.length + (k + 1)) =
              address.toNat + bytes.length + 1 + k := by omega
          rw [hindex]
          congr 1
          exact propext (by omega)
    have hnonzero : ∀ b ∈ bytes, b ≠ 0 := by
      intro b hb
      rw [hbytes] at hb
      obtain ⟨i, hi, rfl⟩ := mem_cut hb
      exact hbefore i hi
    have hlocate₀ : heap.locate address 0 = .ok block := by
      have hfound := hsound.blockAt?_eq_of_mem hmem hstart (by omega)
      have hreach : ¬ address + 0 > (block.stop : Int) := by omega
      simp only [Heap.locate, hfound, hlive, Bool.not_true, Bool.false_eq_true, if_false, hreach]
    simp only [Heap.readString, hlocate₀, hsound.isOpen, Bool.false_eq_true, if_false, hoffset,
      hdrop, hsplit]
    rw [if_pos (by simp), Bytes.untilNul_append_zero, Bytes.untilNul_eq_self hnonzero]

theorem readString (h : table.Describes heap) (hsound : heap.Sound) (address : Int) :
    table.Allows (.readString address) ((Call.readString address).action.run heap).1 := by
  have hrun : ((Call.readString address).action.run heap).1 =
      (heap.readString address).map .bytes := rfl
  rw [hrun]
  have hlength (count : Nat) : (table.cut address.toNat count).length = count := by
    simp [BlockTable.cut]
  constructor
  · intro count hholds
    rw [(h.readString_eq_ok_iff hsound).2 ⟨(hlength count).symm ▸ hholds, by rw [hlength]⟩]
    rfl
  · intro hnone
    rcases hread : heap.readString address with fault | bytes
    · obtain ⟨cause, rfl⟩ := Heap.readString_error hread
      exact ⟨cause, rfl⟩
    · exact absurd ((h.readString_eq_ok_iff hsound).1 hread).1 (hnone _)

/-- The bytes of live blocks after a granted write: those that were written, and elsewhere those
that were there. -/
theorem byteAt_write (h : table.Describes heap) (hsound : heap.Sound) {address : Int}
    {bytes : Bytes} {block : Block} (hlocate : heap.locate address bytes.length = .ok block) :
    ∀ after ∈ (heap.alter block.start fun b ↦
        { b with data := Heap.overwrite (address - block.start).toNat bytes b.data }).blocks,
      after.live = true → ∀ i < after.data.length,
        after.data[i]? = some ((table.put address.toNat bytes).byteAt (after.start + i)) := by
  obtain ⟨hmem, hlive, hstart, hstop⟩ := Heap.locate_eq_ok hlocate
  have hfits : (address - block.start).toNat + bytes.length ≤ block.data.length := by
    unfold Block.stop at hstop
    omega
  intro after hafter hafterLive i hi
  obtain ⟨old, hold, rfl⟩ := List.mem_map.1 hafter
  by_cases hsame : old.start = block.start
  · obtain rfl := hsound.stacked.eq_of_start_eq hold hmem hsame
    rw [if_pos rfl] at hi ⊢
    dsimp only at hi ⊢
    rw [Bytes.length_overwrite hfits] at hi
    rw [Bytes.getElem?_overwrite i hfits, h.byteAt old hmem hlive i hi, byteAt_put]
    by_cases hbelow : i < (address - old.start).toNat
    · rw [if_pos hbelow, if_neg (by omega)]
    · have hindex : old.start + i - address.toNat = i - (address - old.start).toNat := by omega
      rw [if_neg hbelow, if_pos (by omega), hindex]
      rcases bytes[i - (address - old.start).toNat]? with _ | b <;> rfl
  · rw [if_neg hsame] at hi hafterLive ⊢
    rw [h.byteAt old hold hafterLive i hi, byteAt_put]
    -- two blocks that overlap are one, so the write does not reach this one
    by_cases habove : address.toNat ≤ old.start + i
    · have hbeyond : bytes.length ≤ old.start + i - address.toNat := by
        by_contra hreach
        refine hsame (congrArg Block.start (hsound.stacked.eq_of_overlap hold hmem ?_ ?_))
        · have := hsound.stacked.start_lt_stop hold
          unfold Block.stop at hstop this ⊢
          omega
        · unfold Block.stop at hstop ⊢
          omega
      rw [if_pos habove, List.getElem?_eq_none hbeyond]
      rfl
    · rw [if_neg habove]

theorem write (h : table.Describes heap) (hsound : heap.Sound) (address : Int) {bytes : Bytes}
    (hbytes : bytes ≠ []) :
    table.Allows (.write address bytes) ((Call.write address bytes).action.run heap).1 ∧
      (table.after (.write address bytes) ((Call.write address bytes).action.run heap).1).Describes
        ((Call.write address bytes).action.run heap).2 := by
  have hcount : 0 < bytes.length := List.length_pos_iff.2 hbytes
  rcases hlocate : heap.locate address bytes.length with fault | block
  · obtain ⟨cause, rfl⟩ := Heap.locate_error hlocate
    have hrun : (Call.write address bytes).action.run heap = (.error (.memory cause), heap) := by
      rw [Call.action, Action.run_map, Heap.write_error hlocate]
      rfl
    have hnot : ¬ table.Holds address bytes.length := by
      rw [h.holds_iff hsound hcount, hlocate]
      simp
    rw [hrun]
    exact ⟨⟨fun hholds ↦ absurd hholds hnot, fun _ ↦ ⟨cause, rfl⟩⟩, h⟩
  · obtain ⟨hmem, _, _, hstop⟩ := Heap.locate_eq_ok hlocate
    have hrun : (Call.write address bytes).action.run heap = (.ok .done, heap.alter block.start
        fun b ↦ { b with data := Heap.overwrite (address - block.start).toNat bytes b.data }) := by
      rw [Call.action, Action.run_map, Heap.write_eq hsound hlocate]
      rfl
    have hholds : table.Holds address bytes.length :=
      (h.holds_iff hsound hcount).2 ⟨block, hlocate⟩
    have hfits : (address - block.start).toNat + bytes.length ≤ block.data.length := by
      unfold Block.stop at hstop
      omega
    -- an altered block keeps its extent
    have hextent : Block.extent { block with
        data := Heap.overwrite (address - block.start).toNat bytes block.data } = block.extent := by
      unfold Block.extent
      rw [Bytes.length_overwrite hfits]
    rw [hrun]
    refine ⟨⟨fun _ ↦ rfl, fun hnot ↦ absurd hholds hnot⟩, ?_, ?_, ?_⟩
    · intro extent
      change extent ∈ table.issued ↔ _
      rw [h.issued]
      exact (Heap.exists_alter hsound hmem (fun b ↦ b.extent = extent) (by rw [hextent])).symm
    · intro extent
      change extent ∈ table.live ↔ _
      rw [h.live]
      exact (Heap.exists_alter hsound hmem (fun b ↦ b.live = true ∧ b.extent = extent)
        (by rw [hextent])).symm
    · exact h.byteAt_write hsound hlocate

/-- One call: the outcome is right, and the table after it describes the heap after it. -/
theorem step (h : table.Describes heap) (hsound : heap.Sound) {call : Call} (hcall : call.Proper) :
    table.Allows call (call.action.run heap).1 ∧
      (table.after call (call.action.run heap).1).Describes (call.action.run heap).2 := by
  cases call with
  | allocate count => exact h.allocate hsound count
  | free address => exact h.free hsound address
  | read address count => exact ⟨h.read hsound address hcall, h⟩
  | readString address => exact ⟨h.readString hsound address, h⟩
  | write address bytes => exact h.write hsound address hcall

/-- A run: every outcome is right. -/
theorem trace_allows (h : table.Describes heap) (hsound : heap.Sound) {calls : List Call}
    (hcalls : ∀ call ∈ calls, call.Proper) : table.AllowsAll (Heap.trace calls heap) := by
  induction calls generalizing table heap with
  | nil => exact trivial
  | cons call rest ih =>
    obtain ⟨hallows, hafter⟩ := h.step hsound (hcalls call List.mem_cons_self)
    exact ⟨hallows, ih hafter (hsound.call call) fun c hc ↦ hcalls c (List.mem_cons_of_mem _ hc)⟩

end BlockTable.Describes

namespace Heap

/-! ### The capacity -/

/-- Two heaps that differ at most in their capacities. -/
structure SameBlocks (first second : Heap) : Prop where
  top : first.top = second.top
  blocks : first.blocks = second.blocks
  closed : first.closed = second.closed

namespace SameBlocks

variable {first second : Heap}

theorem locate (h : SameBlocks first second) (address count : Int) :
    first.locate address count = second.locate address count := by
  simp [Heap.locate, blockAt?, h.blocks]

theorem isLive (h : SameBlocks first second) (address : Int) :
    first.isLive address = second.isLive address := by
  simp [Heap.isLive, h.blocks]

theorem alter (h : SameBlocks first second) (start : Nat) (f : Block → Block) :
    SameBlocks (first.alter start f) (second.alter start f) where
  top := h.top
  blocks := by simp [Heap.alter, h.blocks]
  closed := h.closed

/-- A call has the same outcome and the same effect whatever the capacity. -/
theorem call (h : SameBlocks first second) (hfirst : first.Sound) (hsecond : second.Sound)
    (call : Call) :
    (call.action.run first).1 = (call.action.run second).1 ∧
      SameBlocks (call.action.run first).2 (call.action.run second).2 := by
  cases call with
  | allocate count =>
    simp only [Call.action, Action.run_map, allocate_eq hfirst, allocate_eq hsecond, h.top,
      true_and]
    exact ⟨by simp [Heap.extend, h.top], by simp [Heap.extend, h.top, h.blocks], h.closed⟩
  | free address =>
    rw [Call.action, Action.run_map, Action.run_map]
    by_cases hlive : first.isLive address = true
    · obtain ⟨block, _, _, rfl⟩ := (isLive_iff address).1 hlive
      rw [free_eq hfirst hlive, free_eq hsecond (h.isLive _ ▸ hlive), ← alter_release,
        ← alter_release]
      exact ⟨rfl, h.alter _ _⟩
    · rw [free_error hlive, free_error (h.isLive _ ▸ hlive)]
      exact ⟨rfl, h⟩
  | read address count =>
    have hneg : ¬ (count : Int) < 0 := by omega
    refine ⟨?_, h⟩
    change (first.read address count).map Answer.bytes = (second.read address count).map _
    simp only [Heap.read, h.locate, h.closed, hneg, if_false]
  | readString address =>
    refine ⟨?_, h⟩
    change (first.readString address).map Answer.bytes = (second.readString address).map _
    simp only [Heap.readString, h.locate, h.closed]
  | write address bytes =>
    rw [Call.action, Action.run_map, Action.run_map]
    rcases hlocate : first.locate address bytes.length with fault | block
    · rw [write_error hlocate, write_error (h.locate _ _ ▸ hlocate)]
      exact ⟨rfl, h⟩
    · rw [write_eq hfirst hlocate, write_eq hsecond (h.locate _ _ ▸ hlocate)]
      exact ⟨rfl, h.alter _ _⟩

/-- Runs from heaps that differ at most in their capacities have the same outcomes and end in such
heaps. -/
theorem run (h : SameBlocks first second) (hfirst : first.Sound) (hsecond : second.Sound)
    (calls : List Call) :
    trace calls first = trace calls second ∧
      SameBlocks (afterCalls calls first) (afterCalls calls second) := by
  induction calls generalizing first second with
  | nil => exact ⟨rfl, h⟩
  | cons call rest ih =>
    obtain ⟨houtcome, hafter⟩ := h.call hfirst hsecond call
    obtain ⟨htrace, hlast⟩ := ih hafter (hfirst.call call) (hsecond.call call)
    refine ⟨?_, hlast⟩
    simp only [trace, houtcome, htrace]

end SameBlocks

end Heap

end Stowage
