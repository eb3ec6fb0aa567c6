import Stowage.Proofs.Payloads.Copy
import Stowage.Proofs.Payloads.Free
import Stowage.Proofs.Payloads.Values
import Stowage.Proofs.Store.Sound

/-!
# What datasets own

A dataset owns the blocks that its stored bytes lead to. `Dataset.contents?` follows the bytes of a
dataset with its own type; `Store.Owns` says that the blocks found on the way are live and that no
address leads to a block that another address leads to as well. In a `Store.Owning` library every
dataset owns what it leads to.
-/

set_option autoImplicit false

namespace Stowage

/-- The contents of `count` elements back to back. -/
def ElementType.contentsEach? (heap : Heap) (type : ElementType) (count : Nat) (buffer : Bytes) :
    Option Contents :=
  Contents.ofItems? (type.contents? heap) type.width count buffer

theorem ElementType.contentsEach?_of_keepsReads {addresses : Nat → Prop} {before after : Heap}
    (hkeeps : Heap.KeepsReads addresses before after) {type : ElementType} {count : Nat}
    {buffer : Bytes} {contents : Contents}
    (h : type.contentsEach? before count buffer = some contents)
    (hblocks : ∀ a ∈ contents.blocks, addresses a) :
    type.contentsEach? after count buffer = some contents :=
  Contents.ofItems?_of_keeps (fun _ _ hitem hitemBlocks ↦
    type.contents?_of_keepsReads hkeeps hitem hitemBlocks) h hblocks

/-- The contents of a dataset in a library. -/
def Dataset.contents? (store : Store) (dataset : Dataset) : Option Contents :=
  match store.registry.typeOf dataset.typeId with
  | .ok type => type.contentsEach? store.heap dataset.count dataset.data
  | .error _ => none

namespace Store

/-- The dataset with the handle leads to exactly the given blocks, which are live and all
different. -/
def Owns (store : Store) (handle : Int) (blocks : List Nat) : Prop :=
  store.heap.Holds blocks ∧ ∃ dataset contents, store.dataset handle = .ok dataset ∧
    dataset.contents? store = some contents ∧ contents.blocks = blocks

variable {store : Store} {handle typeId : Int} {dataset : Dataset} {type : ElementType}

theorem contents?_eq_of_typeOf (htype : store.registry.typeOf dataset.typeId = .ok type) :
    dataset.contents? store = type.contentsEach? store.heap dataset.count dataset.data := by
  rw [Dataset.contents?, htype]

theorem toNat_lengthOf (values : Value) : (lengthOf values).toNat = values.items.length := rfl

/-- A library in which every dataset fits its type and leads to blocks that are live and all
different. -/
def Owning (store : Store) : Prop :=
  ∀ handle dataset, store.dataset handle = .ok dataset → ∃ type blocks,
    store.registry.typeOf dataset.typeId = .ok type ∧ type.Laid ∧ dataset.Fits type ∧
      store.Owns handle blocks

/-- What is known of a dataset that is read or written. -/
theorem Owning.fits (h : store.Owning) {size : Nat}
    (hfitting : store.fitting handle typeId size = .ok (dataset, type)) :
    type.Laid ∧ dataset.Fits type ∧ ∃ contents,
      type.contentsEach? store.heap dataset.count dataset.data = some contents ∧
        store.heap.Holds contents.blocks := by
  obtain ⟨hdataset, _, hheld, _⟩ := fitting_eq_ok.1 hfitting
  obtain ⟨held, blocks, hfound, hlaid, hfits, hholds, _, contents, hsame, hcontents, rfl⟩ :=
    h handle dataset hdataset
  obtain rfl := Except.ok.inj (hheld.symm.trans hfound)
  obtain rfl := Except.ok.inj (hdataset.symm.trans hsame)
  rw [contents?_eq_of_typeOf hheld] at hcontents
  exact ⟨hlaid, hfits, contents, hcontents, hholds⟩

/-- Reclaiming with the number of a registered type frees the payloads of the first elements. -/
theorem run_reclaim (htype : store.registry.typeOf typeId = .ok type) (n : Int) (buffer : Bytes) :
    (reclaim typeId n buffer).run store = (onHeap (type.freeEach n.toNat buffer)).run store := by
  have hfound : (Action.reading fun store : Store ↦ store.registry.typeOf typeId).run store =
      (.ok type, store) := by
    rw [Action.run_reading, htype]
  rw [reclaim, Action.run_bind_ok hfound]

/-- When nothing is to be reclaimed, the payloads of no element are freed. -/
theorem run_reclaimIf (htype : store.registry.typeOf typeId = .ok type) (holdsAddresses : Bool)
    (n : Int) (buffer : Bytes) :
    (reclaimIf holdsAddresses typeId n buffer).run store =
      (onHeap (type.freeEach (if holdsAddresses then n.toNat else 0) buffer)).run store := by
  cases holdsAddresses with
  | true => exact run_reclaim htype n buffer
  | false =>
    rw [if_neg Bool.false_ne_true, ElementType.freeEach_zero]
    rfl

/-- Reclaiming a buffer whose blocks are held frees them. -/
theorem reclaim_eq (store : Store) {count : Nat} {buffer : Bytes} {contents : Contents}
    (hsound : store.heap.Sound) (hlaid : type.Laid)
    (htype : store.registry.typeOf typeId = .ok type)
    (hfits : count * type.width ≤ buffer.length)
    (hcontents : type.contentsEach? store.heap count buffer = some contents)
    (hholds : store.heap.Holds contents.blocks) {n : Int} (hn : n.toNat = count) :
    (reclaim typeId n buffer).run store =
      (.ok (), { store with heap := store.heap.release contents.blocks }) := by
  have hfree := ElementType.freeEach_eq hlaid hsound hfits hcontents hholds
  rw [run_reclaim htype, hn, onHeap, Action.run_within, hfree]

/-- So does reclaiming it only when its type holds addresses. -/
theorem reclaimIf_eq (store : Store) {count : Nat} {buffer : Bytes} {contents : Contents}
    (hsound : store.heap.Sound) (hlaid : type.Laid)
    (htype : store.registry.typeOf typeId = .ok type)
    (hfits : count * type.width ≤ buffer.length)
    (hcontents : type.contentsEach? store.heap count buffer = some contents)
    (hholds : store.heap.Holds contents.blocks) {n : Int} (hn : n.toNat = count) :
    (reclaimIf type.isVariable typeId n buffer).run store =
      (.ok (), { store with heap := store.heap.release contents.blocks }) := by
  unfold reclaimIf
  by_cases hvariable : type.isVariable = true
  · rw [if_pos hvariable]
    exact reclaim_eq store hsound hlaid htype hfits hcontents hholds hn
  · have hnone := ElementType.blocks_eq_nil_of_not_isVariable (Bool.eq_false_iff.2 hvariable)
      hcontents
    rw [if_neg hvariable, hnone, Heap.release_nil]
    rfl

/-- What a write with a fitting buffer comes to, when the buffer and the dataset can be followed. -/
theorem exists_write {buffer : Bytes} {contents : Contents} {owned : List Nat}
    (hsound : store.Sound) (hlaid : type.Laid)
    (hfitting : store.fitting handle typeId buffer.length = .ok (dataset, type))
    (hbuffer : type.contentsEach? store.heap dataset.count buffer = some contents)
    (howns : store.Owns handle owned) :
    ∃ stored heap added, (write handle typeId buffer).run store = (.ok (), { store with
        heap
        datasets := store.datasets.modify (handle - 1).toNat fun d ↦ { d with data := stored } }) ∧
      store.heap.Changed heap owned added ∧ stored.length = buffer.length ∧
      (heap.top ≤ Heap.addressLimit → ∃ copy,
        type.contentsEach? heap dataset.count stored = some copy ∧ copy.blocks = added ∧
          copy.views = contents.views) := by
  obtain ⟨hdataset, _, hheld, hlength⟩ := fitting_eq_ok.1 hfitting
  obtain ⟨hholds, found, held, hfound, hcontents, rfl⟩ := howns
  obtain rfl := Except.ok.inj (hdataset.symm.trans hfound)
  rw [contents?_eq_of_typeOf hheld] at hcontents
  have hfits := hsound.fits hdataset hheld hlaid
  obtain ⟨stored, copied, added, hcopy, hgrown, hstored, hcopied⟩ :=
    ElementType.copyEach_of_contents hlaid hsound.heap (hlength.trans hfits.length_eq) hbuffer
  have hfree := ElementType.freeEach_grown hlaid hsound.heap
    (Nat.le_of_eq hfits.length_eq.symm) hcontents hholds hgrown
  have hchanged := hgrown.release hsound.heap hholds
  refine ⟨stored, _, added, write_eq hfitting hcopy hfree, hchanged, hstored, fun hlimit ↦ ?_⟩
  obtain ⟨copy, hcopy, hblocks, hviews⟩ := hcopied hlimit
  refine ⟨copy, ?_, hblocks, hviews⟩
  refine ElementType.contentsEach?_of_keepsReads (Heap.keepsReads_release hgrown.sound held.blocks)
    hcopy fun a ha ↦ ?_
  -- what was added is live after the release, so it was not among what was freed
  have hmem : a ∈ added := hblocks ▸ ha
  exact Heap.isLive_release.1 (hchanged.holds_added.isLive a hmem)

/-- A library with one dataset that owns what it leads to. -/
theorem owning_of_datasets_eq {blocks : List Nat} (hdatasets : store.datasets = [dataset])
    (htype : store.registry.typeOf dataset.typeId = .ok type) (hlaid : type.Laid)
    (hfits : dataset.Fits type) (howns : store.Owns 1 blocks) : store.Owning := by
  intro handle found hfound
  obtain ⟨hpos, hindex⟩ := dataset_eq_ok.1 hfound
  rw [hdatasets] at hindex
  obtain ⟨hlt, hget⟩ := List.getElem?_eq_some_iff.1 hindex
  rw [List.length_singleton] at hlt
  obtain rfl : handle = 1 := by omega
  obtain rfl : dataset = found := hget
  exact ⟨type, blocks, htype, hlaid, hfits, howns⟩

/-- A library whose dataset holds two strings. -/
def lettered : Store :=
  (Call.writeStrings 1 1 (.list [.text "a", .text "b"])).next <| (Call.createDataset 1 2).next <|
    (Call.register .string).next (empty 0)

theorem reachable_lettered : Reachable 0 lettered :=
  .next (.next (.next .refl trivial) trivial) trivial

/-- The dataset owns its two strings. -/
theorem lettered_owning : lettered.Owning := by
  have hdatasets : lettered.datasets = [⟨1, 2, Bytes.ofNat 8 24 ++ Bytes.ofNat 8 32⟩] := by
    decide +kernel
  have hdataset : lettered.dataset 1 = .ok ⟨1, 2, Bytes.ofNat 8 24 ++ Bytes.ofNat 8 32⟩ :=
    dataset_eq_ok.2 ⟨by decide, by rw [hdatasets]; rfl⟩
  have htype : lettered.registry.typeOf 1 = .ok .string := by decide +kernel
  have hcontents : ((ElementType.string.contentsEach? lettered.heap 2
      (Bytes.ofNat 8 24 ++ Bytes.ofNat 8 32)).map (·.blocks)) = some [24, 32] := by decide +kernel
  obtain ⟨contents, hcontents, hblocks⟩ := Option.map_eq_some_iff.1 hcontents
  have howns : lettered.Owns 1 [24, 32] :=
    ⟨⟨by decide, by decide +kernel⟩, _, contents, hdataset,
      (contents?_eq_of_typeOf htype).trans hcontents, hblocks⟩
  exact owning_of_datasets_eq hdatasets htype trivial
    (reachable_lettered.sound.fits hdataset htype trivial) howns

end Store

end Stowage
