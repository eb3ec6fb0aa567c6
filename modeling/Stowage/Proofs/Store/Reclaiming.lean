import Stowage.Proofs.Packing.Records
import Stowage.Proofs.Packing.Sequences
import Stowage.Proofs.Registry.Classification
import Stowage.Proofs.Store.Ownership
import Stowage.Proofs.Store.Packers

/-!
# Reclaiming a packed buffer

The blocks that packing allocates are those that its buffer leads to when it is followed with the
type it was packed for (`emitsBuffer_packing`). Reclaiming the buffer frees the blocks it leads to,
so it undoes the packing as far as live blocks go (`reclaim_of_pack`).
-/

set_option autoImplicit false

namespace Stowage.Store

namespace Packer

/-- The packers that make buffers for a type with a number. -/
inductive For : Packer → ElementType → Int → Prop where
  /-- Sequences are packed for their sequence type. -/
  | sequences (element : ElementType) (typeId : Int) :
    For (.sequences typeId) (.vlen element) typeId
  /-- Arrays are packed for their array type. -/
  | arrays (element : ElementType) (length typeId : Int) :
    For (.arrays typeId) (.array element length) typeId
  /-- Strings are packed for the type of strings. -/
  | strings (typeId : Int) : For .strings .string typeId
  /-- Records of the layout of a compound type are packed for this type. -/
  | records (members : Members) (size : Int) (attached : Bool) (typeId : Int) :
    For (.records (.ofMembers members size) attached) (.compound members size) typeId

variable {registry : Registry} {packer : Packer} {type : ElementType} {typeId : Int}

/-- Assumes: a well-formed registered type, and a packer for it. The buffer leads to exactly the
blocks that were added. -/
theorem emitsBuffer_packing (hfor : packer.For type typeId) (hwellFormed : type.WellFormed)
    (htype : registry.typeOf typeId = .ok type) (values : Value) :
    EmitsBuffer type values.items.length (fun _ ↦ True) (packer.packing registry values) := by
  cases hfor with
  | sequences element =>
    have helement : element.WellFormed := hwellFormed
    have hemits := Sequence.emitsBuffer_packSequences helement
      (fun _ ↦ Registry.eq_of_sequenceElement htype hwellFormed) values
    exact hemits.weaken fun _ _ ↦ trivial
  | arrays element length =>
    have hemits := Sequence.emitsBuffer_packArrays hwellFormed
      (fun _ ↦ Registry.eq_of_arrayElement htype hwellFormed) values
    exact hemits.weaken fun _ _ ↦ trivial
  | strings => exact (Sequence.emitsBuffer_packStrings values).weaken fun _ _ ↦ trivial
  | records members size attached =>
    refine emitsBuffer_ofExcept_bind fun ⟨⟩ hcheck ↦ ?_
    have hemits : EmitsBuffer (.compound members size) values.items.length (fun _ ↦ True)
        ((RecordLayout.ofMembers members size).pack true values) :=
      (RecordLayout.emitsBuffer_pack hwellFormed.laid hcheck values).weaken fun _ _ ↦ trivial
    cases attached with
    | true => exact hemits
    | false =>
      intro heap out addresses after hsound hrun
      exact hemits heap out addresses after hsound (RecordLayout.pack_of_detached hrun)

end Packer

/-- Assumes: a library after any calls, a registered type that descriptor text describes or defines,
and a granted packing for it. The packing added some blocks to the live ones. Reclaiming the packed
buffer succeeds and does what freeing each of these blocks once does, so the live blocks are again
those from before the packing, with the same bytes. -/
theorem reclaim_of_pack {capacity : Nat} {store packed : Store}
    (hreachable : Reachable capacity store) {type : ElementType}
    (haccepts : Descriptor.Accepts type) {typeId : Int}
    (htype : store.registry.typeOf typeId = .ok type) {packer : Packer}
    (hfor : packer.For type typeId) {values : Value} {buffer : Bytes}
    (hrun : (packer.pack values).run store = (.ok buffer, packed)) :
    ∃ added : List Nat, ∃ reclaimed : Heap,
      (added.Nodup ∧ (∀ a ∈ added, store.heap.isLive a = false) ∧
        ∀ a : Nat, packed.heap.isLive a = true ↔ store.heap.isLive a = true ∨ a ∈ added) ∧
      (Heap.freeAll added).run packed.heap = (.ok (), reclaimed) ∧
      (reclaim typeId (lengthOf values) buffer).run packed =
        (.ok (), { packed with heap := reclaimed }) ∧
      reclaimed.liveBlocks = store.heap.liveBlocks := by
  have hsound := hreachable.sound.heap
  have hwellFormed := haccepts.wellFormed
  obtain ⟨added, hpacking, hpacked⟩ := Packer.run_pack_eq_ok hrun
  obtain ⟨hlength, hemitted⟩ := Packer.emitsBuffer_packing hfor hwellFormed htype values _ _ _ _
    hsound hpacking
  obtain ⟨contents, hcontents, rfl, _⟩ := hemitted.contents
  have hchanged : store.heap.Changed packed.heap [] contents.blocks := hemitted.grown.changed
  have hholds := hchanged.holds_added
  have hregistered : packed.registry.typeOf typeId = .ok type := by
    rw [hpacked]
    exact htype
  refine ⟨contents.blocks, packed.heap.release contents.blocks, ⟨hholds.nodup, ?_, ?_⟩, ?_, ?_, ?_⟩
  · intro a ha
    refine Bool.eq_false_iff.2 fun hlive ↦ ?_
    obtain ⟨block, hblock, _, rfl⟩ := (Heap.isLive_natCast a).1 hlive
    have hlt := hsound.stacked.start_lt hblock
    have hle := hchanged.top_le_of_mem ha
    omega
  · intro a
    simpa using hchanged.isLive_iff a
  · exact Heap.freeAll_eq hchanged.sound hholds.nodup hholds.isLive
  · exact reclaim_eq packed hchanged.sound hwellFormed hregistered (Nat.le_of_eq hlength.symm)
      hcontents hholds (toNat_lengthOf values)
  · exact (hchanged.release_added hsound fun _ ↦ Iff.rfl).liveBlocks_eq

/-- A library with one block of memory and sequences of sequences of strings. -/
def quoting : Store :=
  (Call.register (.vlen (.vlen .string))).next <| (Call.poke 8 [1, 2]).next <|
    (Call.allocate 2).next (empty 0)

/-- Sequences of strings, some of them missing or empty. -/
def quotations : Value :=
  .list [.list [.list [.text "a", .null, .text ""], .null, .list []], .null]

/-- The two strings and the two sequences that take up blocks are freed. -/
theorem reclaim_of_pack_quotations : ∃ buffer packed reclaimed,
    ((Packer.sequences 3).pack quotations).run quoting = (.ok buffer, packed) ∧
      packed.heap.liveCount = 5 ∧
      (reclaim 3 2 buffer).run packed = (.ok (), { packed with heap := reclaimed }) ∧
      reclaimed.liveBlocks = [⟨8, [1, 2], true⟩] := by
  have hreachable : Reachable 0 quoting :=
    .next (.next (.next .refl trivial) trivial) trivial
  have haccepts : Descriptor.Accepts (.vlen (.vlen .string)) :=
    .inl ⟨"vlen<vlen<string>>", by decide +kernel⟩
  have hgranted : (((Packer.sequences 3).pack quotations).run quoting).1.toBool = true := by
    decide +kernel
  have hcount : (((Packer.sequences 3).pack quotations).run quoting).2.heap.liveCount = 5 := by
    decide +kernel
  rcases hrun : ((Packer.sequences 3).pack quotations).run quoting with ⟨fault | buffer, packed⟩
  · rw [hrun] at hgranted
    exact absurd hgranted (by simp [Except.toBool])
  · rw [hrun] at hcount
    obtain ⟨_, reclaimed, _, _, hreclaim, hlive⟩ :=
      reclaim_of_pack hreachable haccepts rfl (.sequences (.vlen .string) 3) hrun
    exact ⟨buffer, packed, reclaimed, rfl, hcount, hreclaim, hlive⟩

end Stowage.Store
