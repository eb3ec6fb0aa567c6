import Stowage.Descriptor.Parser
import Stowage.Proofs.Packing.Tracking
import Stowage.Proofs.Payloads.Evolution
import Stowage.Store.Transfer

/-!
# Calls of the library

`Store.Call` lists what can be asked of a library: blocks of memory, types and datasets, buffers
that are written, read and reclaimed, and the transfers of values. Calls that only look at the
library are left out, since they change nothing.

Every call is built from a few steps: changes of the heap that free and add blocks, a new type, a
new dataset, the contents of one dataset, and bytes written to memory. A relation that is reflexive
and transitive and holds for the steps of a call holds for the call (`Store.Rules.next`).
-/

set_option autoImplicit false

namespace Stowage

/-- A type that descriptor text describes or defines. -/
def Descriptor.Accepts (type : ElementType) : Prop :=
  (∃ text, Descriptor.parse text = .ok type) ∨
    ∃ text definitions name, Descriptor.parseDefinitions text = .ok definitions ∧
      (name, type) ∈ definitions

namespace Store

open Stowage.Action (Preserves)

/-- Something that is asked of a library. -/
inductive Call where
  /-- A new block. -/
  | allocate (count : Int)
  /-- A block is freed. -/
  | free (address : Int)
  /-- Bytes are written to memory. -/
  | poke (address : Int) (bytes : Bytes)
  /-- A type is registered. -/
  | register (type : ElementType)
  /-- A dataset is created. -/
  | createDataset (typeId count : Int)
  /-- A buffer is written to a dataset. -/
  | write (handle typeId : Int) (buffer : Bytes)
  /-- A dataset is read into a buffer of some size. -/
  | read (handle typeId : Int) (size : Nat)
  /-- The payloads of a buffer are freed. -/
  | reclaim (typeId count : Int) (buffer : Bytes)
  /-- Sequences are packed. -/
  | packSequences (values : Value) (typeId : Int)
  /-- Arrays are packed. -/
  | packArrays (values : Value) (typeId : Int)
  /-- Strings are packed. -/
  | packStrings (values : Value)
  /-- Records are packed. -/
  | packRecords (layout : RecordLayout) (attached : Bool) (records : Value)
  /-- Sequences are written to a dataset. -/
  | writeSequences (handle typeId : Int) (values : Value)
  /-- Sequences are read from a dataset. -/
  | readSequences (handle typeId count : Int)
  /-- Arrays are written to a dataset. -/
  | writeArrays (handle typeId : Int) (values : Value)
  /-- Arrays are read from a dataset. -/
  | readArrays (handle typeId count : Int)
  /-- Strings are written to a dataset. -/
  | writeStrings (handle typeId : Int) (values : Value)
  /-- Strings are read from a dataset. -/
  | readStrings (handle typeId count : Int)
  /-- Records are written to a dataset. -/
  | writeRecords (layout : RecordLayout) (attached : Bool) (handle typeId : Int) (records : Value)
  /-- Records are read from a dataset. -/
  | readRecords (layout : RecordLayout) (attached : Bool) (handle typeId count : Int)

/-- The library after a call, whether the call succeeds or is refused. -/
def Call.next (call : Call) (store : Store) : Store :=
  match call with
  | .allocate count => ((onHeap (Heap.allocate count)).run store).2
  | .free address => ((onHeap (Heap.free address)).run store).2
  | .poke address bytes => ((onHeap (Heap.write address bytes)).run store).2
  | .register type => ((Store.register type).run store).2
  | .createDataset typeId count => ((Store.createDataset typeId count).run store).2
  | .write handle typeId buffer => ((Store.write handle typeId buffer).run store).2
  | .read handle typeId size => ((Store.read handle typeId size).run store).2
  | .reclaim typeId count buffer => ((Store.reclaim typeId count buffer).run store).2
  | .packSequences values typeId => ((Store.packSequences values typeId).run store).2
  | .packArrays values typeId => ((Store.packArrays values typeId).run store).2
  | .packStrings values => ((Store.packStrings values).run store).2
  | .packRecords layout attached records =>
    ((Store.packRecords layout attached records).run store).2
  | .writeSequences handle typeId values =>
    ((Store.writeSequences handle typeId values).run store).2
  | .readSequences handle typeId count => ((Store.readSequences handle typeId count).run store).2
  | .writeArrays handle typeId values => ((Store.writeArrays handle typeId values).run store).2
  | .readArrays handle typeId count => ((Store.readArrays handle typeId count).run store).2
  | .writeStrings handle typeId values => ((Store.writeStrings handle typeId values).run store).2
  | .readStrings handle typeId count => ((Store.readStrings handle typeId count).run store).2
  | .writeRecords layout attached handle typeId records =>
    ((Store.writeRecords layout attached handle typeId records).run store).2
  | .readRecords layout attached handle typeId count =>
    ((Store.readRecords layout attached handle typeId count).run store).2

/-- Whether a call writes to the dataset with a handle. -/
def Call.Writes (call : Call) (handle : Int) : Prop :=
  match call with
  | .write h _ _ | .writeSequences h _ _ | .writeArrays h _ _ | .writeStrings h _ _
  | .writeRecords _ _ h _ _ => h = handle
  | _ => False

/-- A relation between libraries that holds for every change of the heap by freed and added blocks,
and for changes one after another. -/
structure Rules (r : Store → Store → Prop) : Prop where
  /-- Nothing happens. -/
  refl : ∀ store, r store store
  /-- One change and then another. -/
  trans : ∀ s₁ s₂ s₃, r s₁ s₂ → r s₂ s₃ → r s₁ s₃
  /-- The heap changes. -/
  onHeap : ∀ {α : Type} {x : Action Heap α}, Preserves Heap.Evolves x → Preserves r (onHeap x)

namespace Rules

variable {r : Store → Store → Prop} (h : Rules r)

include h

theorem read (handle typeId : Int) (size : Nat) : Preserves r (Store.read handle typeId size) := by
  refine Preserves.bind h.trans (Action.preserves_reading h.refl _) fun (dataset, type) ↦ ?_
  exact h.onHeap (type.evolves_copyEach _ _)

theorem reclaim (typeId count : Int) (buffer : Bytes) :
    Preserves r (Store.reclaim typeId count buffer) := by
  refine Preserves.bind h.trans (Action.preserves_reading h.refl _) fun type ↦ ?_
  exact h.onHeap (type.evolves_freeEach _ _)

theorem reclaimIf (holdsAddresses : Bool) (typeId count : Int) (buffer : Bytes) :
    Preserves r (Store.reclaimIf holdsAddresses typeId count buffer) := by
  unfold Store.reclaimIf
  split
  · exact h.reclaim typeId count buffer
  · exact Action.preserves_pure h.refl _

/-- Writing a buffer: copies, the old payloads freed, and the new bytes put in place. -/
theorem write {handle : Int} (hput : ∀ data, Preserves r (putData handle data)) (typeId : Int)
    (buffer : Bytes) : Preserves r (Store.write handle typeId buffer) := by
  refine Preserves.bind h.trans (Action.preserves_reading h.refl _) fun (dataset, type) ↦ ?_
  refine Preserves.bind h.trans (h.onHeap (type.evolves_copyEach _ _)) fun stored ↦ ?_
  exact Preserves.bind h.trans (h.onHeap (type.evolves_freeEach _ _)) fun _ ↦ hput stored

theorem fetch (handle typeId length : Int) : Preserves r (Store.fetch handle typeId length) :=
  Preserves.bind h.trans (Action.preserves_ofExcept h.refl _) fun _ ↦ h.read handle typeId _

theorem packSequences (values : Value) (typeId : Int) :
    Preserves r (Store.packSequences values typeId) := fun store ↦
  h.onHeap ((Sequence.packs_packSequences store.registry values typeId).evolves.map _) store

theorem packArrays (values : Value) (typeId : Int) :
    Preserves r (Store.packArrays values typeId) := fun store ↦
  h.onHeap ((Sequence.packs_packArrays store.registry values typeId).evolves.map _) store

theorem packStrings (values : Value) : Preserves r (Store.packStrings values) :=
  h.onHeap ((Sequence.packs_packStrings values).evolves.map _)

theorem packRecords (layout : RecordLayout) (attached : Bool) (records : Value) :
    Preserves r (Store.packRecords layout attached records) :=
  Preserves.bind h.trans (Action.preserves_ofExcept h.refl _) fun _ ↦
    h.onHeap (layout.packs_pack attached records).evolves

theorem arrayType (typeId : Int) : Preserves r (Store.arrayType typeId) :=
  Action.preserves_reading h.refl _

theorem readSequences (handle typeId count : Int) :
    Preserves r (Store.readSequences handle typeId count) := by
  refine Preserves.bind h.trans (h.fetch handle typeId _) fun table ↦ ?_
  refine Preserves.bind h.trans ?_ fun _ ↦ Action.preserves_ofExcept h.refl _
  exact Preserves.ensuring h.trans (Action.preserves_reading h.refl _) (h.reclaim _ _ _)

theorem readArrays (handle typeId count : Int) :
    Preserves r (Store.readArrays handle typeId count) := by
  refine Preserves.bind h.trans (h.arrayType typeId) fun type ↦ ?_
  refine Preserves.bind h.trans (h.fetch handle typeId _) fun table ↦ ?_
  refine Preserves.bind h.trans ?_ fun _ ↦ Action.preserves_ofExcept h.refl _
  exact Preserves.ensuring h.trans (Action.preserves_reading h.refl _) (h.reclaimIf _ _ _ _)

theorem readStrings (handle typeId count : Int) :
    Preserves r (Store.readStrings handle typeId count) := by
  refine Preserves.bind h.trans (h.fetch handle typeId _) fun table ↦ ?_
  exact Preserves.ensuring h.trans (Action.preserves_reading h.refl _) (h.reclaim _ _ _)

theorem requireAttached (attached : Bool) : Preserves r (Store.requireAttached attached) := by
  unfold Store.requireAttached
  split
  · exact Action.preserves_pure h.refl _
  · exact Action.preserves_refuse h.refl _

theorem readRecords (layout : RecordLayout) (attached : Bool) (handle typeId count : Int) :
    Preserves r (Store.readRecords layout attached handle typeId count) := by
  refine Preserves.bind h.trans (Action.preserves_ofExcept h.refl _) fun _ ↦ ?_
  refine Preserves.bind h.trans (h.requireAttached attached) fun _ ↦ ?_
  refine Preserves.bind h.trans (h.fetch handle typeId _) fun buffer ↦ ?_
  exact Preserves.ensuring h.trans (Action.preserves_reading h.refl _) (h.reclaimIf _ _ _ _)

section Write

variable {handle : Int}
  (hwrite : ∀ typeId buffer, Preserves r (Store.write handle typeId buffer))

include hwrite

theorem writeSequences (typeId : Int) (values : Value) :
    Preserves r (Store.writeSequences handle typeId values) := by
  refine Preserves.bind h.trans (h.packSequences values typeId) fun table ↦ ?_
  exact Preserves.ensuring h.trans (hwrite typeId table) (h.reclaim _ _ _)

theorem writeArrays (typeId : Int) (values : Value) :
    Preserves r (Store.writeArrays handle typeId values) := by
  refine Preserves.bind h.trans (h.arrayType typeId) fun type ↦ ?_
  refine Preserves.bind h.trans (h.packArrays values typeId) fun buffer ↦ ?_
  exact Preserves.ensuring h.trans (hwrite typeId buffer) (h.reclaimIf _ _ _ _)

theorem writeStrings (typeId : Int) (values : Value) :
    Preserves r (Store.writeStrings handle typeId values) := by
  refine Preserves.bind h.trans (h.packStrings values) fun buffer ↦ ?_
  exact Preserves.ensuring h.trans (hwrite typeId buffer) (h.reclaim _ _ _)

theorem writeRecords (layout : RecordLayout) (attached : Bool) (typeId : Int) (records : Value) :
    Preserves r (Store.writeRecords layout attached handle typeId records) := by
  refine Preserves.bind h.trans (Action.preserves_ofExcept h.refl _) fun _ ↦ ?_
  refine Preserves.bind h.trans (h.requireAttached attached) fun _ ↦ ?_
  refine Preserves.bind h.trans (h.onHeap (layout.packs_pack true records).evolves)
    fun (buffer, _) ↦ ?_
  exact Preserves.ensuring h.trans (hwrite typeId buffer) (h.reclaimIf _ _ _ _)

end Write

/-- Assumes: the relation holds for the new type, the new dataset, the written datasets and the
memory write of the call. The relation holds for the whole call. -/
theorem next (call : Call) (store : Store)
    (hregister : ∀ type, call = .register type → r store ((Store.register type).run store).2)
    (hcreate : ∀ typeId count, call = .createDataset typeId count →
      r store ((Store.createDataset typeId count).run store).2)
    (hwrite : ∀ handle, call.Writes handle → ∀ typeId buffer,
      Preserves r (Store.write handle typeId buffer))
    (hpoke : ∀ address bytes, call = .poke address bytes →
      r store ((Store.onHeap (Heap.write address bytes)).run store).2) :
    r store (call.next store) := by
  cases call with
  | allocate count => exact h.onHeap (Heap.evolves_allocate count) store
  | free address => exact h.onHeap (Heap.evolves_free address) store
  | poke address bytes => exact hpoke address bytes rfl
  | register type => exact hregister type rfl
  | createDataset typeId count => exact hcreate typeId count rfl
  | write handle typeId buffer => exact hwrite handle rfl typeId buffer store
  | read handle typeId size => exact h.read handle typeId size store
  | reclaim typeId count buffer => exact h.reclaim typeId count buffer store
  | packSequences values typeId => exact h.packSequences values typeId store
  | packArrays values typeId => exact h.packArrays values typeId store
  | packStrings values => exact h.packStrings values store
  | packRecords layout attached records => exact h.packRecords layout attached records store
  | writeSequences handle typeId values =>
    exact h.writeSequences (hwrite handle rfl) typeId values store
  | readSequences handle typeId count => exact h.readSequences handle typeId count store
  | writeArrays handle typeId values => exact h.writeArrays (hwrite handle rfl) typeId values store
  | readArrays handle typeId count => exact h.readArrays handle typeId count store
  | writeStrings handle typeId values =>
    exact h.writeStrings (hwrite handle rfl) typeId values store
  | readStrings handle typeId count => exact h.readStrings handle typeId count store
  | writeRecords layout attached handle typeId records =>
    exact h.writeRecords (hwrite handle rfl) layout attached typeId records store
  | readRecords layout attached handle typeId count =>
    exact h.readRecords layout attached handle typeId count store

end Rules

end Store

end Stowage
