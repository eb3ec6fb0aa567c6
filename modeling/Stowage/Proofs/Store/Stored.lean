import Stowage.Proofs.Packing.Emission
import Stowage.Proofs.Payloads.Direct
import Stowage.Proofs.Store.History

/-!
# What datasets hold after a transfer

A transfer to a dataset packs values on top of the heap, has the dataset take copies, and reclaims
what was packed; a transfer from a dataset takes copies and reclaims them. The two meet at
`Store.Stores`: the dataset with a handle holds elements that look as accepted. A granted write of a
packed buffer leads there, as long as addresses fit (`stores_of_write`), and from there a buffer of
copies that look the same is fetched and can be reclaimed (`Stores.fetch`). When elements are freed
by their own bytes, what was written to memory before does not matter
(`Reachable.stores_of_write`).
-/

set_option autoImplicit false

namespace Stowage

open Stowage.Action (Preserves)

/-- Assumes: a buffer that leads to the blocks added for it on top of a heap, a copy of the buffer,
and nothing but older blocks freed after that. What the buffer leads to is still held, and the copy
stays when it is released. -/
theorem ElementType.contents_of_exchange {type : ElementType} (hlaid : type.Laid)
    {before packed copied last : Heap} {added gone : List Nat} (hgrown : before.Grown packed added)
    {count : Nat} {buffer stored : Bytes} (hlength : buffer.length = count * type.width)
    {contents : Contents} (hcontents : type.contentsEach? packed count buffer = some contents)
    (hblocks : contents.blocks = added)
    (hcopy : (type.copyEach count buffer).run packed = (.ok stored, copied))
    (hfreed : copied.Changed last gone []) (hgone : ∀ a ∈ gone, a < before.top) :
    type.contentsEach? last count buffer = some contents ∧ last.Holds contents.blocks ∧
      (copied.top ≤ Heap.addressLimit → ∃ copy,
        type.contentsEach? (last.release contents.blocks) count stored = some copy ∧
          copy.views = contents.views) := by
  obtain ⟨_, _, copies, hcopied, hmore, _, hlooks⟩ :=
    copyEach_of_contents hlaid hgrown.sound hlength hcontents
  obtain ⟨houtcome, rfl⟩ := Prod.mk.inj (hcopy.symm.trans hcopied)
  obtain rfl := Except.ok.inj houtcome
  subst hblocks
  have hold : copied.Holds contents.blocks := by
    refine ⟨hgrown.nodup, fun a ha ↦ ?_⟩
    exact (hmore.isLive_iff a).2 (.inl ((hgrown.isLive_iff a).2 (.inr ha)))
  have hkept : ∀ a ∈ contents.blocks, a ∉ gone := by
    intro a ha hmem
    have hlt := hgone a hmem
    have hle := hgrown.top_le_of_mem ha
    omega
  have hfollowed : type.contentsEach? copied count buffer = some contents :=
    type.ofItems?_grows _ _ hgrown.sound hmore hcontents
  refine ⟨?_, hfreed.holds hold hkept, fun hlimit ↦ ?_⟩
  · exact contentsEach?_of_keepsReads (hfreed.keepsReads hmore.sound) hfollowed
      fun a ha ↦ ⟨hold.isLive a ha, hkept a ha⟩
  · obtain ⟨copy, hcopy, rfl, hviews⟩ := hlooks hlimit
    have hlast := hfreed.trans (.release hfreed.sound contents.blocks)
    refine
      ⟨copy, contentsEach?_of_keepsReads (hlast.keepsReads hmore.sound) hcopy fun a ha ↦ ?_, hviews⟩
    refine ⟨(hmore.isLive_iff a).2 (.inr ha), fun hmem ↦ ?_⟩
    -- the copies lie above everything that was freed, and above the packed blocks
    have hle := hmore.top_le_of_mem ha
    rcases List.mem_append.1 hmem with hmem | hmem
    · have hlt := hgone a hmem
      have htop := hgrown.top_le
      omega
    · have hlt := hgrown.lt_top_of_mem hmem
      omega

namespace Store

/-- The dataset with the handle holds `count` elements of the type that look as accepted. -/
structure Stores (store : Store) (handle typeId : Int) (type : ElementType) (count : Nat)
    (accepts : List View → Prop) : Prop where
  /-- The library is sound. -/
  sound : store.Sound
  /-- The number of the type. -/
  typeOf : store.registry.typeOf typeId = .ok type
  /-- The dataset has the type and leads to everything its elements refer to. -/
  dataset : ∃ dataset contents, store.dataset handle = .ok dataset ∧
    store.registry.typeOf dataset.typeId = .ok type ∧ dataset.count = count ∧
      dataset.contents? store = some contents ∧ accepts contents.views

variable {store written : Store} {handle typeId : Int} {type : ElementType} {count : Nat}
  {buffer : Bytes} {accepts : List View → Prop}

/-- A library that remembers never frees what was added later when it frees a dataset. -/
theorem Remembers.freeEach (h : store.Remembers) (hsound : store.Sound)
    (hlimit : store.heap.top ≤ Heap.addressLimit) {dataset : Dataset}
    (hdataset : store.dataset handle = .ok dataset)
    (hheld : store.registry.typeOf dataset.typeId = .ok type) (hlaid : type.Laid)
    {later : Heap} (hbecomes : store.heap.Becomes later) :
    ∃ freed, later.Changed ((type.freeEach dataset.count dataset.data).run later).2 freed [] ∧
      ∀ a ∈ freed, a < store.heap.top := by
  obtain ⟨first, old, hfirst, hbefore, hold, hbelow⟩ :=
    h hlimit dataset (mem_of_dataset hdataset) type hheld hlaid
  obtain ⟨_, _, hlater⟩ := hbefore.trans hbecomes
  obtain ⟨_, _, hbefore⟩ := hbefore
  have hfits := hsound.fits hdataset hheld hlaid
  have hfrees := ElementType.freeEach_frees hlaid hfirst
    (Nat.le_of_eq hfits.length_eq.symm) hold
    hbelow
  obtain ⟨freed, hfreed, hwithin⟩ := hfrees.within hlater
  refine ⟨freed, hfreed, fun a ha ↦ ?_⟩
  exact Nat.lt_of_lt_of_le (hbelow a (hwithin a ha)) hbefore.top_le

/-- Assumes: a type that is laid out and takes bytes, a buffer of such elements that was packed on
top of the heap and leads to the blocks that were added for it, a granted write of the buffer after
which it is reclaimed, and a dataset that, when it is freed later, gives up older blocks only. As
long as addresses fit, the dataset holds elements that look as the packed ones. -/
theorem stores_of_write_freeing (hsound : store.Sound) (hlaid : type.Laid)
    (hwidth : 0 < type.width) (htype : store.registry.typeOf typeId = .ok type) {packed : Heap}
    {added : List Nat} (hgrown : store.heap.Grown packed added)
    (hlength : buffer.length = count * type.width)
    (hpacked : ∃ contents,
      type.contentsEach? packed count buffer = some contents ∧ contents.blocks = added ∧
        accepts contents.views)
    {n : Int} (hn : n.toNat = count)
    (hwrite : (Action.ensuring (write handle typeId buffer)
      (reclaimIf type.isVariable typeId n buffer)).run { store with heap := packed } =
        (.ok (), written))
    (hlimit : written.heap.top ≤ Heap.addressLimit)
    (hfreeing : ∀ dataset later, store.dataset handle = .ok dataset →
      store.registry.typeOf dataset.typeId = .ok type → store.heap.Becomes later →
        ∃ freed, later.Changed ((type.freeEach dataset.count dataset.data).run later).2 freed [] ∧
          ∀ a ∈ freed, a < store.heap.top) :
    written.Stores handle typeId type count accepts := by
  have hafter : written.Sound := by
    have hstays := Preserves.ensuring rules_staysSound.trans (staysSound_write handle typeId buffer)
      (rules_staysSound.reclaimIf type.isVariable typeId n buffer) { store with heap := packed }
    rw [hwrite] at hstays
    exact hstays (hsound.withHeap hgrown.sound)
  obtain ⟨middle, hgranted, hreclaim⟩ := Action.run_ensuring_eq_ok hwrite
  have hcleanup := rules_evolves.reclaimIf type.isVariable typeId n buffer middle
  rw [hreclaim] at hcleanup
  have hcases := write_cases (hsound.withHeap hgrown.sound).heap handle typeId buffer
  rcases hcases with ⟨_, _, _, _, hrun, _⟩ |
    ⟨dataset, held, stored, copied, last, hfitting, hcopy, hfree, hrun⟩
  · exact absurd (Prod.mk.inj (hgranted.symm.trans hrun)).1 (by simp)
  obtain ⟨_, rfl⟩ := Prod.mk.inj (hgranted.symm.trans hrun)
  obtain ⟨hdataset, hgiven, hheld, hsize⟩ := fitting_eq_ok.1 hfitting
  obtain rfl := Except.ok.inj (hgiven.symm.trans htype)
  have hfits := hsound.fits hdataset hheld hlaid
  obtain rfl : dataset.count = count := by
    refine Nat.eq_of_mul_eq_mul_right hwidth ?_
    rw [← hfits.length_eq, ← hlength, hsize]
  obtain ⟨_, hmore, _, _⟩ :=
    ElementType.contents_of_copyEach hlaid hgrown.sound hlength hcopy
  obtain ⟨_, _, hlastChanged⟩ := held.evolves_freeEach dataset.count dataset.data copied hmore.sound
  rw [hfree] at hlastChanged
  have hlastTop : copied.top ≤ written.heap.top :=
    Nat.le_trans hlastChanged.top_le (hcleanup.top_le hlastChanged.sound)
  obtain ⟨contents, hcontents, hblocks, haccepts⟩ := hpacked
  obtain ⟨gone, hfreed, hgone⟩ := hfreeing dataset copied hdataset hheld
    ⟨_, _, hgrown.changed.trans hmore.changed⟩
  rw [hfree] at hfreed
  obtain ⟨hbuffer, hholds, hcopies⟩ := ElementType.contents_of_exchange hlaid hgrown hlength
    hcontents hblocks hcopy hfreed hgone
  have hreclaimed := reclaimIf_eq { store with
      heap := last
      datasets := store.datasets.modify (handle - 1).toNat fun d ↦ { d with data := stored } }
    hfreed.sound hlaid hgiven (Nat.le_of_eq hlength.symm) hbuffer hholds hn
  obtain ⟨_, rfl⟩ := Prod.mk.inj (hreclaim.symm.trans hreclaimed)
  obtain ⟨copy, hcopyContents, hviews⟩ := hcopies (Nat.le_trans hlastTop hlimit)
  have hfound :=
    dataset_modify hdataset (last.release contents.blocks) fun d ↦ { d with data := stored }
  refine ⟨hafter, hgiven, _, copy, hfound, hheld, rfl, ?_, hviews ▸ haccepts⟩
  refine Eq.trans (contents?_eq_of_typeOf ?_) hcopyContents
  exact hheld

/-- Assumes: a library that remembers, a buffer that was packed on top of its heap and leads to the
blocks that were added for it, and a granted write of the buffer after which it is reclaimed. As
long as addresses fit, the dataset holds elements that look as the packed ones. -/
theorem stores_of_write (hsound : store.Sound) (hremembers : store.Remembers)
    (hwellFormed : type.WellFormed) (htype : store.registry.typeOf typeId = .ok type)
    {packed : Heap}
    {added : List Nat} (hgrown : store.heap.Grown packed added)
    (hlength : buffer.length = count * type.width)
    (hpacked : ∃ contents,
      type.contentsEach? packed count buffer = some contents ∧ contents.blocks = added ∧
        accepts contents.views)
    {n : Int} (hn : n.toNat = count)
    (hwrite : (Action.ensuring (write handle typeId buffer)
      (reclaimIf type.isVariable typeId n buffer)).run { store with heap := packed } =
        (.ok (), written))
    (hlimit : written.heap.top ≤ Heap.addressLimit) :
    written.Stores handle typeId type count accepts := by
  have hevolves := Preserves.ensuring rules_evolves.trans (evolves_write handle typeId buffer)
    (rules_evolves.reclaimIf type.isVariable typeId n buffer) { store with heap := packed }
  rw [hwrite] at hevolves
  have hstoreLimit : store.heap.top ≤ Heap.addressLimit :=
    Nat.le_trans hgrown.top_le (Nat.le_trans (hevolves.top_le hgrown.sound) hlimit)
  refine stores_of_write_freeing hsound hwellFormed.laid (ElementType.width_pos hwellFormed) htype
    hgrown hlength hpacked hn hwrite hlimit fun dataset later hdataset hheld hbecomes ↦ ?_
  exact hremembers.freeEach hsound hstoreLimit hdataset hheld hwellFormed.laid hbecomes

/-- Freeing a dataset whose elements are freed by their own bytes gives up blocks that are older
than the present top only. -/
theorem Reachable.freeEach_direct {capacity : Nat} (h : Reachable capacity store)
    (hlaid : type.Laid) (hdirect : type.isVariable = true → type.FreesDirectly)
    (hlimit : store.heap.top ≤ Heap.addressLimit) {dataset : Dataset}
    (hdataset : store.dataset handle = .ok dataset)
    (hheld : store.registry.typeOf dataset.typeId = .ok type) {later : Heap}
    (hlater : later.Sound) :
    ∃ freed, later.Changed ((type.freeEach dataset.count dataset.data).run later).2 freed [] ∧
      ∀ a ∈ freed, a < store.heap.top := by
  have hfits := h.sound.fits hdataset hheld hlaid
  obtain ⟨_, contents, hcontents, hbelow⟩ :=
    h.ledBelow hlimit dataset (mem_of_dataset hdataset) _ hheld hlaid
  have hfrees := ElementType.freeEach_frees_direct hlaid hdirect later
    (Nat.le_of_eq hfits.length_eq.symm) hcontents
  obtain ⟨freed, hchanged, hwithin⟩ := hfrees.within (.refl hlater)
  exact ⟨freed, hchanged, fun a ha ↦ hbelow a (hwithin a ha)⟩

/-- Assumes: a library after any calls, a type that is laid out, takes bytes and is freed by its own
bytes, a packed buffer, and a granted write of it after which it is reclaimed. As long as addresses
fit, the dataset holds elements that look as the packed ones. -/
theorem Reachable.stores_of_write {capacity : Nat} (h : Reachable capacity store)
    (hlaid : type.Laid) (hwidth : 0 < type.width)
    (hdirect : type.isVariable = true → type.FreesDirectly)
    (htype : store.registry.typeOf typeId = .ok type) {packing : Action Heap (Bytes × List Nat)}
    (hemits : EmitsBuffer type count accepts packing) {addresses : List Nat} {packed : Heap}
    (hpacked : packing.run store.heap = (.ok (buffer, addresses), packed)) {n : Int}
    (hn : n.toNat = count)
    (hwrite : (Action.ensuring (write handle typeId buffer)
      (reclaimIf type.isVariable typeId n buffer)).run { store with heap := packed } =
        (.ok (), written))
    (hlimit : written.heap.top ≤ Heap.addressLimit) :
    written.Stores handle typeId type count accepts := by
  obtain ⟨hlength, hemitted⟩ := hemits _ _ _ _ h.sound.heap hpacked
  have hevolves := Preserves.ensuring rules_evolves.trans (evolves_write handle typeId buffer)
    (rules_evolves.reclaimIf type.isVariable typeId n buffer) { store with heap := packed }
  rw [hwrite] at hevolves
  have hstoreLimit : store.heap.top ≤ Heap.addressLimit :=
    Nat.le_trans hemitted.grown.top_le
      (Nat.le_trans (hevolves.top_le hemitted.grown.sound) hlimit)
  exact stores_of_write_freeing h.sound hlaid hwidth htype hemitted.grown hlength hemitted.contents
    hn hwrite hlimit fun dataset later hdataset hheld ⟨_, _, hbecomes⟩ ↦
      h.freeEach_direct hlaid hdirect hstoreLimit hdataset hheld hbecomes.sound

/-- Assumes: a buffer of elements that was packed on top of the heap and leads to the blocks that
were added for it, and a dataset of as many elements that owns what it leads to. Writing the buffer
and reclaiming it is granted. -/
theorem exists_write_reclaim (hsound : store.Sound) (hlaid : type.Laid)
    (htype : store.registry.typeOf typeId = .ok type) {packed : Heap} {added : List Nat}
    (hgrown : store.heap.Grown packed added) {dataset : Dataset}
    (hdataset : store.dataset handle = .ok dataset)
    (hheld : store.registry.typeOf dataset.typeId = .ok type)
    (hlength : buffer.length = dataset.count * type.width) {contents : Contents}
    (hcontents : type.contentsEach? packed dataset.count buffer = some contents)
    (hblocks : contents.blocks = added) {owned : List Nat} (howns : store.Owns handle owned)
    {n : Int} (hn : n.toNat = dataset.count) :
    ∃ written, (Action.ensuring (write handle typeId buffer)
      (reclaimIf type.isVariable typeId n buffer)).run { store with heap := packed } =
        (.ok (), written) := by
  obtain ⟨hholds, found, held, hfound, hled, rfl⟩ := howns
  obtain rfl := Except.ok.inj (hdataset.symm.trans hfound)
  rw [contents?_eq_of_typeOf hheld] at hled
  have hfits := hsound.fits hdataset hheld hlaid
  obtain ⟨stored, copied, more, hcopy, hmore, _, _⟩ :=
    ElementType.copyEach_of_contents hlaid hgrown.sound hlength hcontents
  have hfree := ElementType.freeEach_grown hlaid hsound.heap (Nat.le_of_eq hfits.length_eq.symm)
    hled hholds (hgrown.trans hmore)
  have hfitting : ({ store with heap := packed } : Store).fitting handle typeId buffer.length =
      .ok (dataset, type) :=
    fitting_eq_ok.2 ⟨hdataset, htype, hheld, hlength.trans hfits.length_eq.symm⟩
  have hfreed := Heap.Changed.release hmore.sound held.blocks
  -- what the dataset owned is older than the buffer
  have hgone (a : Nat) (ha : a ∈ held.blocks) : a < store.heap.top := by
    obtain ⟨block, hblock, _, rfl⟩ := (Heap.isLive_natCast a).1 (hholds.isLive a ha)
    exact hsound.heap.stacked.start_lt hblock
  obtain ⟨hbuffer, hholdsBuffer, _⟩ := ElementType.contents_of_exchange hlaid hgrown hlength
    hcontents hblocks hcopy hfreed hgone
  have hreclaimed := reclaimIf_eq { store with
      heap := copied.release held.blocks
      datasets := store.datasets.modify (handle - 1).toNat fun d ↦ { d with data := stored } }
    hfreed.sound hlaid htype (Nat.le_of_eq hlength.symm) hbuffer hholdsBuffer hn
  exact ⟨_, Action.run_ensuring_of_ok (write_eq hfitting hcopy hfree) hreclaimed⟩

/-! ### From datasets -/

namespace Stores

/-- Copies of the elements of a dataset are fetched into a buffer. -/
theorem fetch (h : store.Stores handle typeId type count accepts) (hlaid : type.Laid) :
    ∃ out heap added, (Store.fetch handle typeId (count * type.size)).run store =
        (.ok out, { store with heap }) ∧ store.heap.Grown heap added ∧
      out.length = count * type.width ∧ (heap.top ≤ Heap.addressLimit → ∃ copy,
        type.contentsEach? heap count out = some copy ∧ copy.blocks = added ∧
          accepts copy.views) := by
  obtain ⟨dataset, contents, hdataset, hheld, rfl, hcontents, haccepts⟩ := h.dataset
  rw [contents?_eq_of_typeOf hheld] at hcontents
  have hfits := h.sound.fits hdataset hheld hlaid
  have hlength := hfits.length_eq
  have hlimit := hfits.length_lt
  rw [hlength] at hlimit
  have hfitting := fitting_eq_ok.2 ⟨hdataset, h.typeOf, hheld, hlength.symm⟩
  obtain ⟨out, heap, added, hcopy, hgrown, hout, hcopied⟩ :=
    ElementType.copyEach_of_contents hlaid h.sound.heap hlength hcontents
  refine ⟨out, heap, added, ?_, hgrown, hout.trans hlength, fun hlimit ↦ ?_⟩
  · rw [fetch_eq hlaid hlimit, read_eq hfitting, hcopy]
  · obtain ⟨copy, hcopyContents, hblocks, hviews⟩ := hcopied hlimit
    exact ⟨copy, hcopyContents, hblocks, hviews ▸ haccepts⟩

/-- Assumes: addresses that fit after elements were fetched, looked at and reclaimed. What was
looked at is a buffer of elements that look as accepted, and then their blocks were freed. -/
theorem fetch_ensuring (h : store.Stores handle typeId type count accepts)
    (hlaid : type.Laid) {α : Type} (f : Bytes → Store → Except Fault α) {n : Int}
    (hn : n.toNat = count)
    (hlimit : ((Store.fetch handle typeId (count * type.size) >>= fun buffer ↦
      Action.ensuring (.reading (f buffer)) (reclaimIf type.isVariable typeId n buffer)).run
        store).2.heap.top ≤ Heap.addressLimit) :
    ∃ out heap contents, out.length = count * type.width ∧
      type.contentsEach? heap count out = some contents ∧ accepts contents.views ∧
      (Store.fetch handle typeId (count * type.size) >>= fun buffer ↦
        Action.ensuring (.reading (f buffer))
          (reclaimIf type.isVariable typeId n buffer)).run store =
        (f out { store with heap }, { store with heap := heap.release contents.blocks }) := by
  obtain ⟨out, heap, added, hfetch, hgrown, hlength, hcopied⟩ := h.fetch hlaid
  rw [Action.run_bind_ok hfetch] at hlimit ⊢
  have hcleanup := rules_evolves.reclaimIf type.isVariable typeId n out { store with heap }
  rw [Action.run_ensuring_snd] at hlimit
  obtain ⟨contents, hcontents, hblocks, haccepts⟩ :=
    hcopied (Nat.le_trans (hcleanup.top_le hgrown.sound) hlimit)
  have hholds : heap.Holds contents.blocks :=
    ⟨hblocks ▸ hgrown.nodup, fun a ha ↦ (hgrown.isLive_iff a).2 (.inr (hblocks ▸ ha))⟩
  have hreclaimed := reclaimIf_eq { store with heap } hgrown.sound hlaid h.typeOf
    (Nat.le_of_eq hlength.symm) hcontents hholds hn
  exact ⟨out, heap, contents, hlength, hcontents, haccepts,
    Action.run_ensuring_of_ok (Action.run_reading _ _) hreclaimed⟩

end Stores

end Store

end Stowage
