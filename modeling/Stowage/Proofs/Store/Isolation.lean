import Stowage.Proofs.Store.Ownership

/-!
# Datasets are isolated

A write gives a dataset copies of everything its buffer leads to. After that nothing but another
write to the dataset changes what it looks like, as long as nobody writes to the blocks it owns or
frees them: blocks may be allocated, written and freed, buffers packed and reclaimed, other datasets
read and written. A read then gives out fresh copies that look like the buffer did when it was
written (`read_of_write`).
-/

set_option autoImplicit false

namespace Stowage

namespace Heap

/-- What is still live was live before, and of the given blocks that are, the reads are kept. -/
structure Spares (blocks : List Nat) (before after : Heap) : Prop where
  /-- The heap is still sound. -/
  sound : after.Sound
  /-- The top does not fall. -/
  top_le : before.top ≤ after.top
  /-- Below the old top nothing becomes live. -/
  isLive : ∀ a, a < before.top → after.isLive a = true → before.isLive a = true
  /-- Blocks that stay live keep their contents. -/
  reads : KeepsReads (fun a ↦ a ∈ blocks ∧ a < before.top ∧ after.isLive a = true) before after

namespace Spares

variable {blocks : List Nat} {before middle after : Heap}

theorem refl (hsound : before.Sound) : before.Spares blocks before :=
  ⟨hsound, Nat.le_refl _, fun _ _ h ↦ h, fun _ _ _ _ h ↦ h, fun _ _ _ h ↦ h⟩

theorem trans (first : before.Spares blocks middle) (second : middle.Spares blocks after) :
    before.Spares blocks after where
  sound := second.sound
  top_le := Nat.le_trans first.top_le second.top_le
  isLive := fun a hlt hlive ↦
    first.isLive a hlt (second.isLive a (Nat.lt_of_lt_of_le hlt first.top_le) hlive)
  reads := by
    refine (first.reads.mono fun a ha ↦ ?_).trans (second.reads.mono fun a ha ↦ ?_)
    · obtain ⟨hmem, hlt, hlive⟩ := ha
      exact ⟨hmem, hlt, second.isLive a (Nat.lt_of_lt_of_le hlt first.top_le) hlive⟩
    · obtain ⟨hmem, hlt, hlive⟩ := ha
      exact ⟨hmem, Nat.lt_of_lt_of_le hlt first.top_le, hlive⟩

end Spares

theorem Changed.spares {before after : Heap} {freed added : List Nat}
    (h : before.Changed after freed added) (hsound : before.Sound) (blocks : List Nat) :
    before.Spares blocks after := by
  have hold (a : Nat) (hlt : a < before.top) (hlive : after.isLive a = true) :
      before.isLive a = true ∧ a ∉ freed := by
    rcases (h.isLive_iff a).1 hlive with hkept | hadded
    · exact hkept
    · have hle := h.top_le_of_mem hadded
      omega
  refine ⟨h.sound, h.top_le, fun a hlt hlive ↦ (hold a hlt hlive).1, ?_⟩
  exact (h.keepsReads hsound).mono fun a ha ↦ hold a ha.2.1 ha.2.2

/-- Writing to memory spares all blocks that it does not hit. -/
theorem spares_write {heap : Heap} (hsound : heap.Sound) {address : Int} {bytes : Bytes}
    {blocks : List Nat} (hbeside : ∀ block, heap.locate address bytes.length = .ok block →
      block.start ∉ blocks) :
    heap.Spares blocks ((Heap.write address bytes).run heap).2 := by
  have hafter := hsound.write address bytes
  rcases hlocate : heap.locate address bytes.length with fault | block
  · rw [write_error hlocate]
    exact .refl hsound
  · obtain ⟨hmem, _, _, _⟩ := locate_eq_ok hlocate
    rw [write_eq hsound hlocate] at hafter ⊢
    have hlive (a : Nat) (h : (heap.alter block.start fun b ↦ { b with
        data := overwrite (address - block.start).toNat bytes b.data }).isLive a = true) :
        heap.isLive a = true := by
      rw [isLive_natCast] at h ⊢
      exact (exists_alter hsound hmem (fun b ↦ b.live = true ∧ b.start = a) Iff.rfl).1 h
    refine ⟨hafter, Nat.le_refl _, fun a _ ↦ hlive a, ?_⟩
    refine keepsReads_of_blocks hsound hafter fun a ha ↦ ?_
    obtain ⟨hmemBlocks, _, halive⟩ := ha
    obtain ⟨other, hother, hotherLive, rfl⟩ := (isLive_natCast a).1 (hlive a halive)
    have hne : other.start ≠ block.start := fun h ↦ hbeside block hlocate (h ▸ hmemBlocks)
    exact ⟨other, hother, List.mem_map.2 ⟨other, hother, if_neg hne⟩, hotherLive, rfl⟩

end Heap

/-- Elements keep their contents when the blocks of these are spared and stay live. -/
theorem ElementType.contentsEach?_of_spares {blocks : List Nat} {type : ElementType}
    {first last : Heap}
    (h : first.Spares blocks last) (hholds : first.Holds blocks) (hsound : first.Sound)
    (hlive : ∀ a ∈ blocks, last.isLive a = true) {count : Nat} {bytes : Bytes} {contents : Contents}
    (hcontents : type.contentsEach? first count bytes = some contents)
    (hblocks : contents.blocks = blocks) : type.contentsEach? last count bytes = some contents := by
  refine contentsEach?_of_keepsReads h.reads hcontents fun a ha ↦ ?_
  have hmem : a ∈ blocks := hblocks ▸ ha
  obtain ⟨block, hblock, _, rfl⟩ := (Heap.isLive_natCast a).1 (hholds.isLive a hmem)
  exact ⟨hmem, hsound.stacked.start_lt hblock, hlive _ hmem⟩

namespace Store

open Stowage.Action (Preserves)

/-- A call that does not write to the dataset with the handle, does not free any of the blocks, and
does not write to one of them. -/
structure Spares (handle : Int) (blocks : List Nat) (store : Store) (call : Call) : Prop where
  /-- The dataset is not written. -/
  not_writes : ¬ call.Writes handle
  /-- The blocks are still live afterwards. -/
  isLive : ∀ a ∈ blocks, (call.next store).heap.isLive a = true
  /-- A granted write to memory hits another block. -/
  not_poked : ∀ address bytes, call = .poke address bytes →
    ∀ block, store.heap.locate address bytes.length = .ok block → block.start ∉ blocks

/-- The dataset with the handle and its type are the same, and the blocks are spared. -/
structure Leaves (handle : Int) (blocks : List Nat) (before after : Store) : Prop where
  /-- The heap spares the blocks. -/
  heap : before.heap.Sound → before.heap.Spares blocks after.heap
  /-- Types keep their numbers. -/
  registry : before.registry.Extends after.registry
  /-- The dataset stays. -/
  dataset : ∀ dataset, before.dataset handle = .ok dataset → after.dataset handle = .ok dataset

variable {handle typeId : Int} {blocks : List Nat} {store first last : Store}

theorem rules_leaves (handle : Int) (blocks : List Nat) : Rules (Leaves handle blocks) where
  refl := fun store ↦ ⟨.refl, .refl _, fun _ h ↦ h⟩
  trans := by
    intro s₁ s₂ s₃ first second
    refine ⟨fun hsound ↦ ?_, first.registry.trans second.registry,
      fun d h ↦ second.dataset d (first.dataset d h)⟩
    have hfirst := first.heap hsound
    exact hfirst.trans (second.heap hfirst.sound)
  onHeap := by
    intro α x hx store
    refine ⟨fun hsound ↦ ?_, .refl _, fun _ h ↦ h⟩
    obtain ⟨_, _, hchanged⟩ := hx store.heap hsound
    exact hchanged.spares hsound blocks

/-- Writing to one dataset leaves the others. -/
theorem leaves_write {other : Int} (hother : other ≠ handle) (typeId : Int) (buffer : Bytes) :
    Preserves (Leaves handle blocks) (write other typeId buffer) := by
  by_cases hpos : 0 < other
  · refine (rules_leaves handle blocks).write (fun data store ↦ ?_) typeId buffer
    refine ⟨.refl, .refl _, fun d h ↦ ?_⟩
    obtain ⟨hhandle, hfound⟩ := dataset_eq_ok.1 h
    refine dataset_eq_ok.2 ⟨hhandle, ?_⟩
    change (store.datasets.modify (other - 1).toNat _)[(handle - 1).toNat]? = _
    have hne : (other - 1).toNat ≠ (handle - 1).toNat := by omega
    rw [List.getElem?_modify, hfound]
    exact congrArg some (if_neg hne)
  · intro store
    have hunfit : store.fitting other typeId buffer.length =
        .error (.lookup (.dataset other)) := by
      rw [fitting, Store.dataset, if_pos (by omega)]
      rfl
    rw [write_unfit hunfit]
    exact (rules_leaves handle blocks).refl store

theorem leaves_createDataset (typeId count : Int) :
    Preserves (Leaves handle blocks) (createDataset typeId count) := by
  intro store
  rcases run_createDataset store typeId count with hsame | ⟨_, _, _, _, hrun⟩
  · rw [hsame]
    exact (rules_leaves handle blocks).refl store
  · rw [hrun]
    refine ⟨.refl, .refl _, fun d h ↦ ?_⟩
    obtain ⟨hhandle, hfound⟩ := dataset_eq_ok.1 h
    refine dataset_eq_ok.2 ⟨hhandle, ?_⟩
    obtain ⟨hlt, _⟩ := List.getElem?_eq_some_iff.1 hfound
    dsimp only
    rw [List.getElem?_append_left hlt]
    exact hfound

/-- A call that spares the dataset leaves it. -/
theorem Spares.leaves {call : Call} (h : Spares handle blocks store call)
    (hsound : store.heap.Sound) : Leaves handle blocks store (call.next store) := by
  refine (rules_leaves handle blocks).next call store ?_ ?_ ?_ ?_
  · exact fun type _ ↦ ⟨.refl, type.extends_registerIn _, fun _ h ↦ h⟩
  · exact fun typeId count _ ↦ leaves_createDataset typeId count store
  · exact fun other hwrites ↦ leaves_write fun hsame ↦ h.not_writes (hsame ▸ hwrites)
  · intro address bytes hcall
    exact ⟨fun _ ↦ Heap.spares_write hsound (h.not_poked address bytes hcall), .refl _,
      fun _ h ↦ h⟩

/-- Calls that spare the dataset leave it, one after another. -/
theorem Runs.leaves (h : Runs (Spares handle blocks) first last) (hsound : first.heap.Sound)
    (hlive : ∀ a ∈ blocks, first.heap.isLive a = true) :
    Leaves handle blocks first last ∧ ∀ a ∈ blocks, last.heap.isLive a = true := by
  induction h with
  | refl => exact ⟨(rules_leaves handle blocks).refl first, hlive⟩
  | next _ hcall ih =>
    obtain ⟨hleaves, _⟩ := ih
    have hnext := hcall.leaves (hleaves.heap hsound).sound
    exact ⟨(rules_leaves handle blocks).trans _ _ _ hleaves hnext, hcall.isLive⟩

/-- A read of the dataset gives elements with the given views, all of whose addresses lead to blocks
of their own, which lie behind every block that was there before. -/
def GivesFresh (store : Store) (handle typeId : Int) (type : ElementType) (count size : Nat)
    (views : List View) : Prop :=
  ∃ out last, (read handle typeId size).run store = (.ok out, last) ∧ out.length = size ∧
    (last.heap.top ≤ Heap.addressLimit → ∃ copy,
      type.contentsEach? last.heap count out = some copy ∧ copy.views = views ∧
        last.heap.Holds copy.blocks ∧
        ∀ a ∈ copy.blocks, ∀ block ∈ store.heap.blocks, block.stop ≤ a)

theorem givesFresh {type : ElementType} {dataset : Dataset} {contents : Contents} {size : Nat}
    (hsound : store.heap.Sound) (hwellFormed : type.WellFormed)
    (hfitting : store.fitting handle typeId size = .ok (dataset, type))
    (hlength : dataset.data.length = dataset.count * type.width)
    (hcontents : type.contentsEach? store.heap dataset.count dataset.data = some contents) :
    store.GivesFresh handle typeId type dataset.count size contents.views := by
  obtain ⟨_, _, _, hsize⟩ := fitting_eq_ok.1 hfitting
  obtain ⟨out, after, added, hread, hgrown, hout, hcopied⟩ :=
    ElementType.copyEach_of_contents hwellFormed hsound hlength hcontents
  refine ⟨out, { store with heap := after }, ?_, hout.trans hsize.symm, fun hlimit ↦ ?_⟩
  · rw [read_eq hfitting, hread]
  · obtain ⟨copy, hcopy, rfl, hviews⟩ := hcopied hlimit
    refine ⟨copy, hcopy, hviews, ⟨hgrown.nodup, fun a ha ↦ ?_⟩, fun a ha block hblock ↦ ?_⟩
    · exact (hgrown.isLive_iff a).2 (.inr ha)
    · exact Nat.le_trans (hsound.stacked.stop_le hblock) (hgrown.top_le_of_mem ha)

/-- Assumes: a type that descriptor text describes, a dataset of that type that leads to different
live blocks, and a buffer of its size that can be followed everywhere. The write succeeds. Whatever
calls come after it, as long as they do not write to the dataset or to its blocks and do not free
them, a read gives a buffer that looks like the written one and leads to fresh blocks only. -/
theorem read_of_write {capacity : Nat} (hreachable : Reachable capacity store) {type : ElementType}
    (haccepts : Descriptor.Accepts type) (htype : store.registry.typeOf typeId = .ok type)
    {dataset : Dataset} (hdataset : store.dataset handle = .ok dataset)
    (hheld : store.registry.typeOf dataset.typeId = .ok type) {owned : List Nat}
    (howns : store.Owns handle owned) {buffer : Bytes}
    (hlength : (buffer.length : Int) = dataset.count * type.size) {contents : Contents}
    (hcontents : type.contentsEach? store.heap dataset.count buffer = some contents) :
    ∃ written, (write handle typeId buffer).run store = (.ok (), written) ∧
      (written.heap.top ≤ Heap.addressLimit → ∃ blocks, written.Owns handle blocks ∧
        ∀ later, Runs (Spares handle blocks) written later →
          later.GivesFresh handle typeId type dataset.count buffer.length contents.views) := by
  have hsound := hreachable.sound
  have hwellFormed := haccepts.wellFormed
  have hfits := hsound.fits hdataset hheld hwellFormed
  have hsize : buffer.length = dataset.data.length := by
    rw [ElementType.mul_size hwellFormed] at hlength
    rw [hfits.length_eq]
    omega
  have hfitting := fitting_eq_ok.2 ⟨hdataset, htype, hheld, hsize⟩
  obtain ⟨stored, heap, added, hwrite, hchanged, hstored, hcopied⟩ :=
    exists_write hsound hwellFormed hfitting hcontents howns
  refine ⟨_, hwrite, fun hlimit ↦ ?_⟩
  obtain ⟨copy, hcopy, rfl, hviews⟩ := hcopied hlimit
  have hholds := hchanged.holds_added
  have hwritten := dataset_modify hdataset heap fun d ↦ { d with data := stored }
  refine ⟨copy.blocks, ⟨hholds, _, copy, hwritten, ?_, rfl⟩, fun later hruns ↦ ?_⟩
  · refine Eq.trans (contents?_eq_of_typeOf ?_) hcopy
    exact hheld
  · obtain ⟨hleaves, hlive⟩ := hruns.leaves hchanged.sound hholds.isLive
    have hspares := hleaves.heap hchanged.sound
    have hlater := ElementType.contentsEach?_of_spares hspares hholds hchanged.sound hlive hcopy rfl
    have hfittingLater := fitting_eq_ok.2 ⟨hleaves.dataset _ hwritten,
      Registry.typeOf_of_extends hleaves.registry htype,
      Registry.typeOf_of_extends hleaves.registry hheld, hstored.symm⟩
    have hgives := givesFresh hspares.sound hwellFormed hfittingLater
      (hstored.trans (hsize.trans hfits.length_eq)) hlater
    rw [hviews] at hgives
    exact hgives

/-- A library with a string, a block that holds the address of the string twice, and a dataset of
two sequences of strings. -/
def sharing : Store :=
  (Call.poke 16 (Bytes.ofNat 8 8 ++ Bytes.ofNat 8 8)).next <| (Call.allocate 16).next <|
    (Call.poke 8 [104, 105, 0]).next <| (Call.allocate 3).next <|
      (Call.createDataset 2 2).next <| (Call.register (.vlen .string)).next (empty 0)

/-- Two sequences that share their items are written, and a read gives items to each. -/
theorem read_of_write_sharing :
    ∃ contents, (ElementType.vlen .string).contentsEach? sharing.heap 2
        (Buffer.entryBytes 2 16 ++ Buffer.entryBytes 2 16) = some contents ∧
      ∃ written, (write 1 2 (Buffer.entryBytes 2 16 ++ Buffer.entryBytes 2 16)).run sharing =
          (.ok (), written) ∧
        (written.heap.top ≤ Heap.addressLimit → ∃ blocks, written.Owns 1 blocks ∧
          ∀ later, Runs (Spares 1 blocks) written later →
            later.GivesFresh 1 2 (.vlen .string) 2 32 contents.views) := by
  have hreachable : Reachable 0 sharing :=
    .next (.next (.next (.next (.next (.next .refl trivial) trivial) trivial) trivial) trivial)
      trivial
  obtain ⟨contents, hcontents⟩ := Option.isSome_iff_exists.1
    (by decide +kernel : ((ElementType.vlen .string).contentsEach? sharing.heap 2
      (Buffer.entryBytes 2 16 ++ Buffer.entryBytes 2 16)).isSome = true)
  have hdataset : sharing.dataset 1 = .ok ⟨2, 2, Bytes.zeros 32⟩ := rfl
  exact ⟨contents, hcontents, read_of_write hreachable (.inl ⟨"vlen<string>", rfl⟩) rfl hdataset rfl
    ⟨.nil _, _, _, hdataset, rfl, rfl⟩ rfl hcontents⟩

end Store

end Stowage
