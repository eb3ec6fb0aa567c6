import Stowage.Proofs.Payloads.FirstPayload
import Stowage.Proofs.Store.Isolation

/-!
# Refused writes leave datasets intact

A library is intact when its heap is sound, unless it was closed, and when every dataset is of a
type that descriptor text describes and owns what it leads to. A write to an intact library is
refused only before the first old payload is freed: what the dataset owns can be freed, and the
copies that are made before lie beside it. So a refused write leaves every dataset with its bytes,
its blocks and what a read gives (`write_refused_keeps`).

A closed heap is allowed for. Nothing can be read in it, so a dataset that owns what it leads to
holds null addresses only, and neither copies nor frees anything.
-/

set_option autoImplicit false

namespace Stowage

namespace Heap

variable {heap : Heap}

/-- Nothing can be read in a closed heap. -/
theorem readable_of_closed (hclosed : heap.closed = true) :
    heap.readable = ⟨fun _ _ ↦ none, fun _ ↦ none⟩ := by
  have hread (address count : Int) : (heap.read address count).toOption = none := by
    rcases h : heap.read address count with fault | bytes
    · rfl
    · exact absurd ((not_closed_of_read h).symm.trans hclosed) (by simp)
  have hreadString (address : Int) : (heap.readString address).toOption = none := by
    rcases h : heap.readString address with fault | text
    · rfl
    · exact absurd ((not_closed_of_readString h).symm.trans hclosed) (by simp)
  simp only [readable, hread, hreadString]

/-- Nothing can be read in an empty heap. -/
theorem readable_empty (capacity : Nat) :
    (empty capacity).readable = ⟨fun _ _ ↦ none, fun _ ↦ none⟩ := rfl

/-- Reads are kept from a heap in which there are none. -/
theorem keepsReads_of_closed (hclosed : heap.closed = true) (other : Heap) :
    KeepsReads (fun _ ↦ True) heap other where
  read := fun _ _ _ _ h ↦ absurd ((not_closed_of_read h).symm.trans hclosed) (by simp)
  readString := fun _ _ _ h ↦
    absurd ((not_closed_of_readString h).symm.trans hclosed) (by simp)

/-- A heap that grows into one without blocks has grown by none. -/
theorem Grown.eq_nil {before after : Heap} {added : List Nat} (h : before.Grown after added)
    (hnone : after.blocks = []) : added = [] := by
  obtain ⟨fresh, hblocks, rfl, _⟩ := h.blocks_eq
  obtain ⟨rfl, _⟩ := List.append_eq_nil_iff.1 (hblocks.symm.trans hnone)
  rfl

end Heap

/-- Elements that can be followed in a closed heap hold null addresses only. -/
theorem ElementType.null_of_closed {type : ElementType} {heap : Heap} {count : Nat} {buffer : Bytes}
    {contents : Contents} (hlaid : type.Laid) (hclosed : heap.closed = true)
    (hlength : buffer.length = count * type.width)
    (hcontents : type.contentsEach? heap count buffer = some contents) :
    type.firstPayloadEach heap.readable count buffer = .absent ∧ contents.blocks = [] := by
  -- they look the same in an empty heap, where a copy can be made of them
  have hsound := Heap.sound_empty 0
  have hempty := contentsEach?_of_keepsReads (Heap.keepsReads_of_closed hclosed (.empty 0))
    hcontents fun _ _ ↦ trivial
  obtain ⟨stored, after, added, hcopy, hgrown, _, hcopied⟩ :=
    copyEach_of_contents hlaid hsound hlength hempty
  have hopens := opens_copyEach (fun _ ↦ hsound) type count buffer
  have hnotRefused := hopens.ne_refused hcopy
  have hsame : heap.readable = (Heap.empty 0).readable :=
    (Heap.readable_of_closed hclosed).trans (Heap.readable_empty 0).symm
  have habsent : type.firstPayloadEach heap.readable count buffer = .absent := by
    have hnever : heap.closed = false → heap.Sound := fun h ↦
      absurd (h.symm.trans hclosed) (by simp)
    rcases (opens_copyEach hnever type count buffer).heap_cases with ⟨hnotCopied, _⟩ | ⟨_, h, _⟩
    · rw [← hsame] at hnotRefused
      cases hfirst : type.firstPayloadEach heap.readable count buffer with
      | absent => rfl
      | copied => exact absurd hfirst hnotCopied
      | refused => exact absurd hfirst hnotRefused
    · exact absurd (h.isOpen.symm.trans hclosed) (by simp)
  refine ⟨habsent, ?_⟩
  rw [← hsame, habsent] at hopens
  obtain ⟨hstored, rfl⟩ := Prod.mk.inj (hcopy.symm.trans hopens)
  obtain rfl := Except.ok.inj hstored
  obtain ⟨copy, hcopy, hblocks, _⟩ := hcopied (by decide)
  obtain rfl := Option.some.inj (hempty.symm.trans hcopy)
  exact hblocks.trans (hgrown.eq_nil rfl)

namespace Store

/-- A library whose datasets own what they lead to, and whose heap is sound unless it was closed. -/
structure Intact (store : Store) : Prop where
  /-- The heap is sound as long as it is open. -/
  heap : store.heap.closed = false → store.heap.Sound
  /-- Every dataset is of a type that descriptor text describes, fits it, and leads to blocks that
  are live and all different. -/
  datasets : ∀ handle dataset, store.dataset handle = .ok dataset → ∃ type blocks,
    store.registry.typeOf dataset.typeId = .ok type ∧ Descriptor.Accepts type ∧
      dataset.Fits type ∧ store.Owns handle blocks

variable {store : Store} {handle typeId : Int} {dataset : Dataset} {type : ElementType}

/-- A library that calls lead to is intact when its datasets are of types that descriptor text
describes and own what they lead to. -/
theorem Reachable.intact {capacity : Nat} (h : Reachable capacity store)
    (hdatasets : ∀ handle dataset, store.dataset handle = .ok dataset → ∃ type blocks,
      store.registry.typeOf dataset.typeId = .ok type ∧ Descriptor.Accepts type ∧
        store.Owns handle blocks) : store.Intact where
  heap := fun _ ↦ h.sound.heap
  datasets := by
    intro handle dataset hdataset
    obtain ⟨type, blocks, htype, haccepts, howns⟩ := hdatasets handle dataset hdataset
    have hfits := h.sound.fits hdataset htype haccepts.wellFormed.laid
    exact ⟨type, blocks, htype, haccepts, hfits, howns⟩

theorem Intact.owning (h : store.Intact) : store.Owning := by
  intro handle dataset hdataset
  obtain ⟨type, blocks, htype, haccepts, hfits, howns⟩ := h.datasets handle dataset hdataset
  exact ⟨type, blocks, htype, haccepts.wellFormed.laid, hfits, howns⟩

/-- What an intact library knows of a dataset that is read or written. -/
theorem Intact.fits (h : store.Intact) {size : Nat}
    (hfitting : store.fitting handle typeId size = .ok (dataset, type)) :
    type.WellFormed ∧ dataset.Fits type ∧ ∃ contents,
      type.contentsEach? store.heap dataset.count dataset.data = some contents ∧
        store.heap.Holds contents.blocks := by
  obtain ⟨hdataset, _, hheld, _⟩ := fitting_eq_ok.1 hfitting
  obtain ⟨held, _, hfound, haccepts, _⟩ := h.datasets handle dataset hdataset
  obtain rfl := Except.ok.inj (hheld.symm.trans hfound)
  exact ⟨haccepts.wellFormed, (h.owning.fits hfitting).2⟩

/-- In an intact library every dataset can be read, and the read gives fresh copies that look like
the dataset. -/
theorem Intact.givesFresh (h : store.Intact) {size : Nat}
    (hfitting : store.fitting handle typeId size = .ok (dataset, type)) :
    ∃ contents, type.contentsEach? store.heap dataset.count dataset.data = some contents ∧
      store.GivesFresh handle typeId type dataset.count size contents.views := by
  obtain ⟨hwellFormed, hfits, contents, hcontents, hholds⟩ := h.fits hfitting
  refine ⟨contents, hcontents, ?_⟩
  rcases hclosed : store.heap.closed with _ | _
  · exact Store.givesFresh (h.heap hclosed) hwellFormed hfitting hfits.length_eq hcontents
  · obtain ⟨_, _, _, hsize⟩ := fitting_eq_ok.1 hfitting
    obtain ⟨habsent, hnone⟩ :=
      ElementType.null_of_closed hwellFormed.laid hclosed hfits.length_eq hcontents
    have hcopy := ElementType.opens_copyEach h.heap type dataset.count dataset.data
    rw [habsent] at hcopy
    refine ⟨dataset.data, store, ?_, hsize.symm, fun _ ↦ ⟨contents, hcontents, rfl, hholds, ?_⟩⟩
    · rw [read_eq hfitting, show (type.copyEach dataset.count dataset.data).run store.heap = _ from
        hcopy]
    · rw [hnone]
      exact fun _ ha ↦ absurd ha List.not_mem_nil

/-- Freeing what a dataset of an intact library owns is not refused, also when copies were made
before. -/
theorem Intact.freeEach_ne_error (h : store.Intact) {buffer : Bytes}
    (hfitting : store.fitting handle typeId buffer.length = .ok (dataset, type)) {stored : Bytes}
    {copied freed : Heap}
    (hcopy : (type.copyEach dataset.count buffer).run store.heap = (.ok stored, copied))
    {fault : Fault} :
    (type.freeEach dataset.count dataset.data).run copied ≠ (.error fault, freed) := by
  intro hfree
  obtain ⟨hwellFormed, hfits, contents, hcontents, hholds⟩ := h.fits hfitting
  obtain ⟨_, _, _, hsize⟩ := fitting_eq_ok.1 hfitting
  rcases hclosed : store.heap.closed with _ | _
  · have hsound := h.heap hclosed
    obtain ⟨added, hgrown, _, _⟩ := ElementType.contents_of_copyEach hwellFormed.laid hsound
      (hsize.trans hfits.length_eq) hcopy
    have hfreed := ElementType.freeEach_grown hwellFormed.laid hsound
      (Nat.le_of_eq hfits.length_eq.symm) hcontents hholds hgrown
    exact absurd (Prod.mk.inj (hfree.symm.trans hfreed)).1 (by simp)
  · obtain ⟨habsent, _⟩ :=
      ElementType.null_of_closed hwellFormed.laid hclosed hfits.length_eq hcontents
    rw [ElementType.freeEach_of_absent habsent] at hfree
    exact absurd (Prod.mk.inj hfree).1 (by simp)

/-- A refused write to an intact library leaves the heap or lets it grow, and leaves the rest. -/
theorem Intact.write_refused (h : store.Intact) {buffer : Bytes} {fault : Fault} {after : Store}
    (hrun : (write handle typeId buffer).run store = (.error fault, after)) :
    after = store ∨ store.heap.Sound ∧ ∃ heap added, store.heap.Grown heap added ∧
      after = { store with heap } := by
  rcases Store.write_refused hrun with ⟨_, rfl⟩ | ⟨dataset, type, hfitting, hcases⟩
  · exact .inl rfl
  rcases hcases with ⟨copied, hcopy, rfl⟩ | ⟨stored, copied, freed, hcopy, hfree, _⟩
  · rcases (type.opens_copyEach h.heap dataset.count buffer).heap_cases with
      ⟨_, hsame⟩ | ⟨_, hsound, address, added, hgrown⟩
    · rw [hcopy] at hsame
      obtain rfl : copied = store.heap := hsame
      exact .inl rfl
    · rw [hcopy] at hgrown
      exact .inr ⟨hsound, copied, _, hgrown, rfl⟩
  · exact absurd hfree (h.freeEach_ne_error hfitting hcopy)

/-- Owned blocks stay owned when the heap grows. -/
theorem Owns.grown {blocks added : List Nat} {heap : Heap} (h : store.Owns handle blocks)
    (hsound : store.heap.Sound) (hgrown : store.heap.Grown heap added) :
    { store with heap }.Owns handle blocks := by
  obtain ⟨hholds, dataset, contents, hdataset, hcontents, hblocks⟩ := h
  refine ⟨hgrown.holds hholds, dataset, contents, hdataset, ?_, hblocks⟩
  unfold Dataset.contents? at hcontents ⊢
  dsimp only
  split at hcontents
  · exact ElementType.ofItems?_grows _ _ _ hsound hgrown hcontents
  · exact absurd hcontents (by simp)

theorem Intact.grown (h : store.Intact) {heap : Heap} {added : List Nat}
    (hsound : store.heap.Sound) (hgrown : store.heap.Grown heap added) :
    { store with heap }.Intact where
  heap := fun _ ↦ hgrown.sound
  datasets := by
    intro handle dataset hdataset
    obtain ⟨type, blocks, htype, haccepts, hfits, howns⟩ := h.datasets handle dataset hdataset
    exact ⟨type, blocks, htype, haccepts, hfits, howns.grown hsound hgrown⟩

/-- The dataset with the handle has the same bytes in both libraries and the same blocks with the
same contents, and what can be read of it in the first looks the same in the second. -/
structure KeepsDataset (handle : Int) (before after : Store) : Prop where
  /-- The dataset is the same. -/
  dataset_eq : after.dataset handle = before.dataset handle
  /-- Its blocks are still owned. -/
  owns : ∀ blocks, before.Owns handle blocks → after.Owns handle blocks
  /-- Its blocks hold the same. -/
  mem_blocks : ∀ blocks, before.Owns handle blocks →
    ∀ block ∈ before.heap.blocks, block.start ∈ blocks → block ∈ after.heap.blocks
  /-- A read gives fresh copies of the same elements. -/
  givesFresh : ∀ typeId size dataset type,
    before.fitting handle typeId size = .ok (dataset, type) → ∃ views,
      before.GivesFresh handle typeId type dataset.count size views ∧
        after.GivesFresh handle typeId type dataset.count size views

theorem Intact.keeps_self (h : store.Intact) (handle : Int) : KeepsDataset handle store store where
  dataset_eq := rfl
  owns := fun _ howns ↦ howns
  mem_blocks := fun _ _ _ hblock _ ↦ hblock
  givesFresh := by
    intro typeId size dataset type hfitting
    obtain ⟨contents, _, hgives⟩ := h.givesFresh hfitting
    exact ⟨contents.views, hgives, hgives⟩

theorem Intact.keeps_grown (h : store.Intact) {heap : Heap} {added : List Nat}
    (hsound : store.heap.Sound) (hgrown : store.heap.Grown heap added) (handle : Int) :
    KeepsDataset handle store { store with heap } where
  dataset_eq := rfl
  owns := fun _ howns ↦ howns.grown hsound hgrown
  mem_blocks := fun _ _ _ hblock _ ↦ hgrown.mem_of_mem hblock
  givesFresh := by
    intro typeId size dataset type hfitting
    obtain ⟨contents, hcontents, hgives⟩ := h.givesFresh hfitting
    obtain ⟨later, hlater, hgivesLater⟩ := (h.grown hsound hgrown).givesFresh hfitting
    -- the dataset looks in the new heap as it did in the old one
    have hsame := type.ofItems?_grows _ _ hsound hgrown hcontents
    obtain rfl := Option.some.inj (hlater.symm.trans hsame)
    exact ⟨_, hgives, hgivesLater⟩

/-- Assumes: a library whose datasets are of types that descriptor text describes and own what they
lead to, and a write that is refused, for whatever reason. No dataset has changed: each has its
bytes, its blocks with their contents, and what a read gives of it looks as before. -/
theorem write_refused_keeps (h : store.Intact) {buffer : Bytes} {fault : Fault} {after : Store}
    (hrun : (write handle typeId buffer).run store = (.error fault, after)) :
    after.datasets = store.datasets ∧ after.registry = store.registry ∧ after.Intact ∧
      ∀ other, KeepsDataset other store after := by
  rcases h.write_refused hrun with rfl | ⟨hsound, heap, added, hgrown, rfl⟩
  · exact ⟨rfl, rfl, h, h.keeps_self⟩
  · exact ⟨rfl, rfl, h.grown hsound hgrown, h.keeps_grown hsound hgrown⟩

/-- A library whose dataset holds two sequences of two strings each. -/
def stocked : Store :=
  (Call.write 1 2 (Buffer.entryBytes 2 16 ++ Buffer.entryBytes 2 16)).next sharing

theorem stocked_owns : stocked.Owns 1 [32, 40, 48, 64, 72, 80] := by
  have hblocks : (stocked.datasets[0]?.bind fun d ↦ (d.contents? stocked).map (·.blocks)) =
      some [32, 40, 48, 64, 72, 80] := by decide +kernel
  obtain ⟨dataset, hdataset, hblocks⟩ := Option.bind_eq_some_iff.1 hblocks
  obtain ⟨contents, hcontents, hblocks⟩ := Option.map_eq_some_iff.1 hblocks
  refine ⟨⟨by decide, by decide +kernel⟩, dataset, contents, ?_, hcontents, hblocks⟩
  exact dataset_eq_ok.2 ⟨by decide, hdataset⟩

/-- A buffer whose first sequence can be followed and whose second one leads nowhere is refused, and
the strings of the dataset are still there. -/
theorem write_refused_keeps_stocked :
    ∃ fault after, (write 1 2 (Buffer.entryBytes 2 16 ++ Buffer.entryBytes 1 4096)).run stocked =
        (.error fault, after) ∧
      KeepsDataset 1 stocked after ∧ after.Owns 1 [32, 40, 48, 64, 72, 80] := by
  have hreachable : Reachable 0 stocked :=
    .next (.next (.next (.next (.next (.next (.next .refl trivial) trivial) trivial) trivial)
      trivial) trivial) trivial
  have hintact : stocked.Intact := hreachable.intact fun handle dataset hdataset ↦ by
    obtain ⟨hpos, hfound⟩ := dataset_eq_ok.1 hdataset
    have hlength : stocked.datasets.length = 1 := by decide +kernel
    obtain ⟨hlt, _⟩ := List.getElem?_eq_some_iff.1 hfound
    obtain rfl : handle = 1 := by omega
    have htypes : (stocked.datasets[0]?.map (·.typeId)) = some 2 := by decide +kernel
    have htype : dataset.typeId = 2 := by
      rw [show stocked.datasets[0]? = some dataset from hfound] at htypes
      exact Option.some.inj htypes
    have hheld : stocked.registry.typeOf dataset.typeId = .ok (.vlen .string) := by
      rw [htype]
      decide +kernel
    exact ⟨.vlen .string, _, hheld, .inl ⟨"vlen<string>", rfl⟩, stocked_owns⟩
  have hnone : ((write 1 2 (Buffer.entryBytes 2 16 ++ Buffer.entryBytes 1 4096)).run
      stocked).1.toOption = none := by decide +kernel
  rcases hrun : (write 1 2 (Buffer.entryBytes 2 16 ++ Buffer.entryBytes 1 4096)).run stocked with
    ⟨fault | _, after⟩
  · obtain ⟨_, _, _, hkeeps⟩ := write_refused_keeps hintact hrun
    exact ⟨fault, after, rfl, hkeeps 1, (hkeeps 1).owns _ stocked_owns⟩
  · rw [hrun] at hnone
    exact absurd hnone (by simp [Except.toOption])

end Store

end Stowage
