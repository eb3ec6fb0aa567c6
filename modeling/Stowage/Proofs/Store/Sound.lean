import Stowage.Proofs.Descriptor.Soundness
import Stowage.Proofs.Payloads.Copy
import Stowage.Proofs.Registry.Closure
import Stowage.Proofs.Store.Calls

/-!
# Libraries that can be reached

A library is sound when its heap is and when every dataset of a type that is laid out holds as many
bytes as its elements take. Every call keeps a library sound, so every library that can be reached
is sound (`Reachable.sound`), whatever types were registered on the way.
-/

set_option autoImplicit false

namespace Stowage

open Stowage.Action (Preserves)

theorem Descriptor.Accepts.wellFormed {type : ElementType} (h : Descriptor.Accepts type) :
    type.WellFormed := by
  rcases h with ⟨text, hparse⟩ | ⟨text, definitions, name, hparse, hmem⟩
  · exact Descriptor.wellFormed_of_parse hparse
  · exact Descriptor.wellFormed_of_parseDefinitions hparse _ hmem

/-- The dataset holds as many bytes as its elements take. -/
structure Dataset.Fits (dataset : Dataset) (type : ElementType) : Prop where
  /-- Every byte belongs to an element. -/
  length_eq : dataset.data.length = dataset.count * type.width
  /-- A buffer of this size can be made. -/
  length_lt : (dataset.data.length : Int) < Buffer.indexLimit

namespace Store

/-! ### Runs -/

/-- The libraries that calls lead to from a first one, where each call is allowed in the library it
is made on. -/
inductive Runs (allowed : Store → Call → Prop) (first : Store) : Store → Prop where
  /-- No call was made. -/
  | refl : Runs allowed first first
  /-- One call more. -/
  | next {store : Store} {call : Call} (h : Runs allowed first store) (hcall : allowed store call) :
    Runs allowed first (call.next store)

/-- The libraries that any calls lead to from an empty one. -/
def Reachable (capacity : Nat) (store : Store) : Prop :=
  Runs (fun _ _ ↦ True) (empty capacity) store

theorem Runs.reachable {allowed : Store → Call → Prop} {capacity : Nat} {store : Store}
    (h : Runs allowed (empty capacity) store) : Reachable capacity store := by
  induction h with
  | refl => exact .refl
  | next _ _ ih => exact .next ih trivial

/-! ### Datasets -/

variable {store : Store} {handle typeId : Int} {dataset : Dataset} {type : ElementType}

theorem dataset_eq_ok :
    store.dataset handle = .ok dataset ↔
      0 < handle ∧ store.datasets[(handle - 1).toNat]? = some dataset := by
  unfold Store.dataset
  by_cases hhandle : handle ≤ 0
  · rw [if_pos hhandle]
    constructor
    · exact fun h ↦ absurd h (by simp)
    · rintro ⟨hpos, _⟩
      omega
  · rw [if_neg hhandle]
    rcases store.datasets[(handle - 1).toNat]? with _ | found
    · simp
    · simp only [Except.ok.injEq, Option.some.injEq]
      exact ⟨fun h ↦ ⟨by omega, h⟩, fun h ↦ h.2⟩

/-- A changed dataset is found under its handle. -/
theorem dataset_modify (h : store.dataset handle = .ok dataset) (heap : Heap)
    (f : Dataset → Dataset) :
    { store with heap, datasets := store.datasets.modify (handle - 1).toNat f }.dataset handle =
      .ok (f dataset) := by
  obtain ⟨hhandle, hfound⟩ := dataset_eq_ok.1 h
  refine dataset_eq_ok.2 ⟨hhandle, ?_⟩
  dsimp only
  rw [List.getElem?_modify, hfound]
  exact congrArg some (if_pos rfl)

/-- Changing a dataset leaves the others. -/
theorem mem_modify (h : store.dataset handle = .ok dataset) {f : Dataset → Dataset}
    {other : Dataset}
    (hother : other ∈ store.datasets.modify (handle - 1).toNat f) :
    other = f dataset ∨ other ∈ store.datasets := by
  obtain ⟨index, hindex⟩ := List.mem_iff_getElem?.1 hother
  rw [List.getElem?_modify] at hindex
  obtain ⟨old, hold, rfl⟩ := Option.map_eq_some_iff.1 hindex
  by_cases hsame : (handle - 1).toNat = index
  · have hfound := (dataset_eq_ok.1 h).2
    rw [hsame] at hfound
    obtain rfl := Option.some.inj (hold.symm.trans hfound)
    exact .inl (if_pos hsame)
  · rw [if_neg hsame]
    exact .inr (List.mem_of_getElem? hold)

theorem mem_of_dataset (h : store.dataset handle = .ok dataset) : dataset ∈ store.datasets :=
  List.mem_of_getElem? (dataset_eq_ok.1 h).2

/-- A dataset is written and read with the type it holds and a buffer of its size. -/
theorem fitting_eq_ok {size : Nat} :
    store.fitting handle typeId size = .ok (dataset, type) ↔
      store.dataset handle = .ok dataset ∧ store.registry.typeOf typeId = .ok type ∧
        store.registry.typeOf dataset.typeId = .ok type ∧ size = dataset.data.length := by
  unfold fitting
  simp only [Outcome.bind_eq_ok]
  constructor
  · rintro ⟨found, hfound, given, hgiven, held, hheld, h⟩
    split at h
    · exact absurd h (by simp)
    · next hsame =>
      split at h
      · exact absurd h (by simp)
      · next hsize =>
        obtain ⟨rfl, rfl⟩ := Prod.mk.inj (Except.ok.inj h)
        obtain rfl := Decidable.not_not.1 hsame
        exact ⟨hfound, hgiven, hheld, Decidable.not_not.1 hsize⟩
  · rintro ⟨hfound, hgiven, hheld, hsize⟩
    exact ⟨dataset, hfound, type, hgiven, type, hheld, by rw [if_neg (by simp), if_neg (by simpa)]⟩

/-- Creating a dataset changes nothing or adds a dataset of zeros. -/
theorem run_createDataset (store : Store) (typeId count : Int) :
    ((createDataset typeId count).run store).2 = store ∨ ∃ (type : ElementType) (n : Nat),
      store.registry.typeOf typeId = .ok type ∧
        (0 ≤ n * type.size ∧ n * type.size < Buffer.indexLimit) ∧
        ((createDataset typeId count).run store).2 = { store with
          datasets := store.datasets ++ [⟨typeId, n, Bytes.zeros (n * type.size).toNat⟩] } := by
  unfold createDataset Action.run
  dsimp only
  split
  · exact .inl rfl
  · next created hcreated =>
    split at hcreated
    · exact absurd hcreated (by simp [bind, Except.bind])
    · obtain ⟨type, htype, hcreated⟩ := Outcome.bind_eq_ok.1 hcreated
      obtain ⟨data, hdata, hcreated⟩ := Outcome.bind_eq_ok.1 hcreated
      obtain rfl := Except.ok.inj hcreated
      obtain ⟨hpos, hlimit, rfl⟩ := Buffer.zeroed_eq_ok.1 hdata
      obtain ⟨n, rfl⟩ := Int.eq_ofNat_of_zero_le (by omega : 0 ≤ count)
      exact .inr ⟨type, n, htype, ⟨hpos, hlimit⟩, rfl⟩

/-! ### What a write comes to -/

section Write

variable {buffer stored : Bytes} {copied freed : Heap} {fault : Fault}

theorem write_unfit (hfitting : store.fitting handle typeId buffer.length = .error fault) :
    (write handle typeId buffer).run store = (.error fault, store) := by
  rw [write, Action.run_bind_error]
  rw [Action.run_reading, hfitting]

variable (hfitting : store.fitting handle typeId buffer.length = .ok (dataset, type))

include hfitting

theorem write_uncopied
    (hcopy : (type.copyEach dataset.count buffer).run store.heap = (.error fault, copied)) :
    (write handle typeId buffer).run store = (.error fault, { store with heap := copied }) := by
  have hread : (Action.reading fun store : Store ↦
      store.fitting handle typeId buffer.length).run store = (.ok (dataset, type), store) := by
    rw [Action.run_reading, hfitting]
  have hcopied : (onHeap (type.copyEach dataset.count buffer)).run store =
      (.error fault, { store with heap := copied }) := by
    rw [onHeap, Action.run_within, hcopy]
  rw [write, Action.run_bind_ok hread, Action.run_bind_error hcopied]

variable (hcopy : (type.copyEach dataset.count buffer).run store.heap = (.ok stored, copied))

include hcopy

theorem write_unfreed
    (hfree : (type.freeEach dataset.count dataset.data).run copied = (.error fault, freed)) :
    (write handle typeId buffer).run store = (.error fault, { store with heap := freed }) := by
  have hread : (Action.reading fun store : Store ↦
      store.fitting handle typeId buffer.length).run store = (.ok (dataset, type), store) := by
    rw [Action.run_reading, hfitting]
  have hcopied : (onHeap (type.copyEach dataset.count buffer)).run store =
      (.ok stored, { store with heap := copied }) := by
    rw [onHeap, Action.run_within, hcopy]
  have hfreed : (onHeap (type.freeEach dataset.count dataset.data)).run
      { store with heap := copied } = (.error fault, { store with heap := freed }) := by
    rw [onHeap, Action.run_within, hfree]
  rw [write, Action.run_bind_ok hread, Action.run_bind_ok hcopied, Action.run_bind_error hfreed]

/-- A granted write copies the buffer, frees what the dataset held, and replaces its bytes. -/
theorem write_eq
    (hfree : (type.freeEach dataset.count dataset.data).run copied = (.ok (), freed)) :
    (write handle typeId buffer).run store = (.ok (), { store with
      heap := freed
      datasets :=
        store.datasets.modify (handle - 1).toNat fun d ↦ { d with data := stored } }) := by
  have hread : (Action.reading fun store : Store ↦
      store.fitting handle typeId buffer.length).run store = (.ok (dataset, type), store) := by
    rw [Action.run_reading, hfitting]
  have hcopied : (onHeap (type.copyEach dataset.count buffer)).run store =
      (.ok stored, { store with heap := copied }) := by
    rw [onHeap, Action.run_within, hcopy]
  have hfreed : (onHeap (type.freeEach dataset.count dataset.data)).run
      { store with heap := copied } = (.ok (), { store with heap := freed }) := by
    rw [onHeap, Action.run_within, hfree]
  rw [write, Action.run_bind_ok hread, Action.run_bind_ok hcopied, Action.run_bind_ok hfreed]
  rfl

end Write

/-- A refused write changes the heap at most: it was refused because the buffer does not fit, while
payloads were copied, or while the old ones were freed. -/
theorem write_refused {buffer : Bytes} {fault : Fault} {after : Store}
    (hrun : (write handle typeId buffer).run store = (.error fault, after)) :
    (store.fitting handle typeId buffer.length = .error fault ∧ after = store) ∨
      ∃ dataset type, store.fitting handle typeId buffer.length = .ok (dataset, type) ∧
        ((∃ copied, (type.copyEach dataset.count buffer).run store.heap = (.error fault, copied) ∧
            after = { store with heap := copied }) ∨
          ∃ stored copied freed,
            (type.copyEach dataset.count buffer).run store.heap = (.ok stored, copied) ∧
            (type.freeEach dataset.count dataset.data).run copied = (.error fault, freed) ∧
            after = { store with heap := freed }) := by
  rcases hfitting : store.fitting handle typeId buffer.length with cause | ⟨dataset, type⟩
  · obtain ⟨hcause, rfl⟩ := Prod.mk.inj ((write_unfit hfitting).symm.trans hrun)
    obtain rfl := Except.error.inj hcause
    exact .inl ⟨rfl, rfl⟩
  refine .inr ⟨dataset, type, rfl, ?_⟩
  rcases hcopy : (type.copyEach dataset.count buffer).run store.heap with ⟨cause | stored, copied⟩
  · obtain ⟨hcause, rfl⟩ := Prod.mk.inj ((write_uncopied hfitting hcopy).symm.trans hrun)
    obtain rfl := Except.error.inj hcause
    exact .inl ⟨copied, rfl, rfl⟩
  rcases hfree : (type.freeEach dataset.count dataset.data).run copied with ⟨cause | ⟨⟩, freed⟩
  · obtain ⟨hcause, rfl⟩ := Prod.mk.inj ((write_unfreed hfitting hcopy hfree).symm.trans hrun)
    obtain rfl := Except.error.inj hcause
    exact .inr ⟨stored, copied, freed, rfl, hfree, rfl⟩
  · exact absurd (Prod.mk.inj ((write_eq hfitting hcopy hfree).symm.trans hrun)).1 (by simp)

/-- A write is refused and changes the heap at most, or copies the buffer, frees what the dataset
held, and replaces its bytes. -/
theorem write_cases (hsound : store.heap.Sound) (handle typeId : Int) (buffer : Bytes) :
    (∃ fault heap freed added, (write handle typeId buffer).run store =
        (.error fault, { store with heap }) ∧ store.heap.Changed heap freed added) ∨
      ∃ dataset type stored copied freed,
        store.fitting handle typeId buffer.length = .ok (dataset, type) ∧
          (type.copyEach dataset.count buffer).run store.heap = (.ok stored, copied) ∧
          (type.freeEach dataset.count dataset.data).run copied = (.ok (), freed) ∧
          (write handle typeId buffer).run store = (.ok (), { store with
            heap := freed
            datasets := store.datasets.modify (handle - 1).toNat fun d ↦
              { d with data := stored } }) := by
  rcases hfitting : store.fitting handle typeId buffer.length with fault | ⟨dataset, type⟩
  · exact .inl ⟨fault, store.heap, _, _, write_unfit hfitting, .refl hsound⟩
  · obtain ⟨_, _, hcopied⟩ := type.evolves_copyEach dataset.count buffer store.heap hsound
    rcases hcopy : (type.copyEach dataset.count buffer).run store.heap with ⟨fault | stored, copied⟩
    · rw [hcopy] at hcopied
      exact .inl ⟨fault, copied, _, _, write_uncopied hfitting hcopy, hcopied⟩
    · rw [hcopy] at hcopied
      obtain ⟨_, _, hfreed⟩ :=
        type.evolves_freeEach dataset.count dataset.data copied hcopied.sound
      rcases hfree : (type.freeEach dataset.count dataset.data).run copied with
        ⟨fault | ⟨⟩, freed⟩
      · rw [hfree] at hfreed
        exact .inl ⟨fault, freed, _, _, write_unfreed hfitting hcopy hfree, hcopied.trans hfreed⟩
      · exact .inr ⟨dataset, type, stored, copied, freed, rfl, hcopy, hfree,
          write_eq hfitting hcopy hfree⟩

/-- A granted read copies what the dataset holds. -/
theorem read_eq {size : Nat} (hfitting : store.fitting handle typeId size = .ok (dataset, type)) :
    (read handle typeId size).run store =
      (((type.copyEach dataset.count dataset.data).run store.heap).1,
        { store with heap := ((type.copyEach dataset.count dataset.data).run store.heap).2 }) := by
  have hread : (Action.reading fun store : Store ↦ store.fitting handle typeId size).run store =
      (.ok (dataset, type), store) := by
    rw [Action.run_reading, hfitting]
  rw [read, Action.run_bind_ok hread]
  rfl

/-- Fetching some elements reads a buffer of their size. -/
theorem fetch_eq (hlaid : type.Laid) {count : Nat}
    (hlimit : ((count * type.width : Nat) : Int) < Buffer.indexLimit) :
    (fetch handle typeId (count * type.size)).run store =
      (read handle typeId (count * type.width)).run store := by
  have hzeroed : Buffer.zeroed (count * type.size) = .ok (Bytes.zeros (count * type.width)) := by
    rw [hlaid.mul_size]
    exact Buffer.zeroed_eq_ok.2 ⟨Int.natCast_nonneg _, hlimit, rfl⟩
  rw [fetch, Action.run_ofExcept_bind_ok hzeroed, Bytes.length_zeros]

/-! ### Sound libraries -/

/-- A library whose parts fit each other. -/
structure Sound (store : Store) : Prop where
  /-- The heap is sound. -/
  heap : store.heap.Sound
  /-- Every dataset has a type, and fits it when the type is laid out. -/
  datasets : ∀ dataset ∈ store.datasets, ∃ type,
    store.registry.typeOf dataset.typeId = .ok type ∧ (type.Laid → dataset.Fits type)

namespace Sound

theorem fits (h : store.Sound) (hdataset : store.dataset handle = .ok dataset)
    (htype : store.registry.typeOf dataset.typeId = .ok type) (hlaid : type.Laid) :
    dataset.Fits type := by
  obtain ⟨held, hheld, hfits⟩ := h.datasets dataset (mem_of_dataset hdataset)
  obtain rfl := Except.ok.inj (htype.symm.trans hheld)
  exact hfits hlaid

/-- The heap may change without the rest. -/
theorem withHeap (h : store.Sound) {heap : Heap} (hheap : heap.Sound) :
    { store with heap }.Sound := ⟨hheap, h.datasets⟩

/-- A dataset may be given other bytes, as many as before when its type is laid out. -/
theorem withData (h : store.Sound) (hdataset : store.dataset handle = .ok dataset)
    (htype : store.registry.typeOf dataset.typeId = .ok type) {data : Bytes}
    (hdata : type.Laid → data.length = dataset.data.length) :
    { store with
      datasets := store.datasets.modify (handle - 1).toNat (fun d ↦ { d with data }) }.Sound where
  heap := h.heap
  datasets := by
    intro d hd
    rcases mem_modify hdataset hd with rfl | hd
    · refine ⟨type, htype, fun hlaid ↦ ?_⟩
      have hfits := h.fits hdataset htype hlaid
      have hlength := hdata hlaid
      have hlt := hfits.length_lt
      refine ⟨hlength.trans hfits.length_eq, ?_⟩
      dsimp only
      omega
    · exact h.datasets d hd

end Sound

theorem sound_empty (capacity : Nat) : (empty capacity).Sound where
  heap := Heap.sound_empty capacity
  datasets := fun _ h ↦ absurd h List.not_mem_nil

/-! ### Calls keep libraries sound -/

/-- Staying sound. -/
def StaysSound (before after : Store) : Prop := before.Sound → after.Sound

theorem rules_staysSound : Rules StaysSound where
  refl := fun _ h ↦ h
  trans := fun _ _ _ first second h ↦ second (first h)
  onHeap := by
    intro α x hx store hsound
    obtain ⟨_, _, hchanged⟩ := hx store.heap hsound.heap
    exact hsound.withHeap hchanged.sound

theorem staysSound_register (type : ElementType) : Preserves StaysSound (register type) := by
  intro store hsound
  have hextends := type.extends_registerIn store.registry
  refine ⟨hsound.heap, fun d hd ↦ ?_⟩
  obtain ⟨held, hheld, hfits⟩ := hsound.datasets d hd
  exact ⟨held, Registry.typeOf_of_extends hextends hheld, hfits⟩

theorem staysSound_createDataset (typeId count : Int) :
    Preserves StaysSound (createDataset typeId count) := by
  intro store hsound
  rcases run_createDataset store typeId count with hsame |
    ⟨type, n, htype, hlimit, hrun⟩
  · rw [hsame]
    exact hsound
  · rw [hrun]
    refine ⟨hsound.heap, fun d hd ↦ ?_⟩
    rcases List.mem_append.1 hd with hd | hd
    · exact hsound.datasets d hd
    · obtain rfl := List.mem_singleton.1 hd
      refine ⟨type, htype, fun hlaid ↦ ?_⟩
      have hsize := hlaid.mul_size n
      refine ⟨?_, ?_⟩
      · simp only [Bytes.length_zeros, hsize, Int.toNat_natCast]
      · simp only [Bytes.length_zeros]
        omega

theorem staysSound_write (handle typeId : Int) (buffer : Bytes) :
    Preserves StaysSound (write handle typeId buffer) := by
  intro store hsound
  rcases write_cases hsound.heap handle typeId buffer with ⟨_, heap, _, _, hrun, hchanged⟩ |
    ⟨dataset, type, stored, copied, freed, hfitting, hcopy, hfree, hrun⟩
  · rw [hrun]
    exact hsound.withHeap hchanged.sound
  · obtain ⟨hdataset, _, hheld, hlength⟩ := fitting_eq_ok.1 hfitting
    obtain ⟨_, _, hcopied⟩ := type.evolves_copyEach dataset.count buffer store.heap hsound.heap
    rw [hcopy] at hcopied
    obtain ⟨_, _, hfreed⟩ := type.evolves_freeEach dataset.count dataset.data copied hcopied.sound
    rw [hfree] at hfreed
    rw [hrun]
    refine (hsound.withData hdataset hheld fun hlaid ↦ ?_).withHeap hfreed.sound
    have hfits := hsound.fits hdataset hheld hlaid
    obtain ⟨_, _, hstored, _⟩ := ElementType.contents_of_copyEach hlaid hsound.heap
      (hlength.trans hfits.length_eq) hcopy
    exact hstored.trans hlength

/-- Every call keeps a library sound. -/
theorem Sound.next (hsound : store.Sound) (call : Call) : (call.next store).Sound := by
  refine rules_staysSound.next call store ?_ ?_ ?_ ?_ hsound
  · exact fun type _ ↦ staysSound_register type store
  · exact fun typeId count _ ↦ staysSound_createDataset typeId count store
  · exact fun handle _ typeId buffer ↦ staysSound_write handle typeId buffer
  · exact fun address bytes _ hsound ↦ hsound.withHeap (hsound.heap.write address bytes)

/-- Every library that can be reached is sound. -/
theorem Reachable.sound {capacity : Nat} (h : Reachable capacity store) : store.Sound := by
  induction h with
  | refl => exact sound_empty capacity
  | next _ _ ih => exact ih.next _

/-! ### Calls that register nothing -/

/-- The registry stays, and blocks of the heap are freed and added. -/
structure Evolves (before after : Store) : Prop where
  /-- The registry stays. -/
  registry_eq : after.registry = before.registry
  /-- The heap evolves. -/
  heap : before.heap.Evolves after.heap

theorem rules_evolves : Rules Evolves where
  refl := fun store ↦ ⟨rfl, .refl store.heap⟩
  trans := fun _ _ _ first second ↦
    ⟨second.registry_eq.trans first.registry_eq, .trans _ _ _ first.heap second.heap⟩
  onHeap := fun hx store ↦ ⟨rfl, hx store.heap⟩

theorem evolves_write (handle typeId : Int) (buffer : Bytes) :
    Preserves Evolves (write handle typeId buffer) :=
  rules_evolves.write (fun _ store ↦ ⟨rfl, .refl store.heap⟩) typeId buffer

theorem Evolves.top_le {after : Store} (h : store.Evolves after) (hsound : store.heap.Sound) :
    store.heap.top ≤ after.heap.top := by
  obtain ⟨_, _, hchanged⟩ := h.heap hsound
  exact hchanged.top_le

/-! ### Closed registries -/

/-- A closed registry stays closed. -/
def StaysClosed (before after : Store) : Prop := before.registry.Closed → after.registry.Closed

theorem rules_staysClosed : Rules StaysClosed where
  refl := fun _ h ↦ h
  trans := fun _ _ _ first second h ↦ second (first h)
  onHeap := fun _ _ h ↦ h

/-- Every call keeps a registry closed. -/
theorem staysClosed_next (call : Call) (store : Store) : StaysClosed store (call.next store) := by
  refine rules_staysClosed.next call store ?_ ?_ ?_ ?_
  · exact fun type _ h ↦ type.closed_registerIn h
  · intro typeId count _ h
    rcases run_createDataset store typeId count with hsame | ⟨_, _, _, _, hrun⟩
    · rw [hsame]
      exact h
    · rw [hrun]
      exact h
  · intro handle _ typeId buffer store h
    rw [(evolves_write handle typeId buffer store).registry_eq]
    exact h
  · exact fun _ _ _ h ↦ h

/-- In every library that can be reached, types are registered after what they contain. -/
theorem Reachable.closed {capacity : Nat} (h : Reachable capacity store) :
    store.registry.Closed := by
  induction h with
  | refl => exact Registry.closed_empty
  | next _ _ ih => exact staysClosed_next _ _ ih

end Store

end Stowage
