import Stowage.Proofs.Store.Ownership

/-!
# What datasets led to when they were written

A dataset may lead to blocks that are gone: any block can be freed from outside. But as long as
nobody writes to memory directly, what a dataset holds could be followed at the time it was written,
and led to blocks below the top of that time (`Dataset.WasFollowed`). So freeing it never frees a
block that was added later.

Whatever follows from that and stays when blocks are freed and added holds of every dataset in a
library that can be reached (`Store.Durable.upholds`), up to what direct writes do to it.
-/

set_option autoImplicit false

namespace Stowage

open Stowage.Action (Preserves)

/-- The heap has come to be the second one by freeing and adding blocks. -/
def Heap.Becomes (before after : Heap) : Prop := ∃ freed added, before.Changed after freed added

theorem Heap.Becomes.trans {before middle after : Heap} (first : before.Becomes middle)
    (second : middle.Becomes after) : before.Becomes after := by
  obtain ⟨_, _, hfirst⟩ := first
  obtain ⟨_, _, hsecond⟩ := second
  exact ⟨_, _, hfirst.trans hsecond⟩

/-- Some time ago the dataset could be followed and led to blocks below the top. -/
def Dataset.WasFollowed (dataset : Dataset) (type : ElementType) (heap : Heap) : Prop :=
  ∃ first contents, first.Sound ∧ first.Becomes heap ∧
    type.contentsEach? first dataset.count dataset.data = some contents ∧
    ∀ a ∈ contents.blocks, a < first.top

theorem Dataset.WasFollowed.becomes {dataset : Dataset} {type : ElementType} {before after : Heap}
    (h : dataset.WasFollowed type before) (hbecomes : before.Becomes after) :
    dataset.WasFollowed type after := by
  obtain ⟨first, contents, hsound, hbefore, hcontents, hbelow⟩ := h
  exact ⟨first, contents, hsound, hbefore.trans hbecomes, hcontents, hbelow⟩

/-- In some heap, what the dataset holds led to blocks below the present top. -/
def Dataset.LedBelow (dataset : Dataset) (type : ElementType) (heap : Heap) : Prop :=
  ∃ followed contents, type.contentsEach? followed dataset.count dataset.data = some contents ∧
    ∀ a ∈ contents.blocks, a < heap.top

namespace Store

/-- As long as addresses fit, every dataset of a type that is laid out has the property. -/
def Upholds (store : Store) (property : Dataset → ElementType → Heap → Prop) : Prop :=
  store.heap.top ≤ Heap.addressLimit → ∀ dataset ∈ store.datasets, ∀ type,
    store.registry.typeOf dataset.typeId = .ok type → type.Laid →
      property dataset type store.heap

/-- The property follows from what a dataset led to, and stays when blocks are freed and added. -/
structure Durable (property : Dataset → ElementType → Heap → Prop) : Prop where
  /-- A dataset that was followed has the property. -/
  of_followed : ∀ {dataset type heap}, dataset.WasFollowed type heap → property dataset type heap
  /-- A dataset keeps the property. -/
  becomes : ∀ {dataset type before after}, property dataset type before →
    before.Becomes after → property dataset type after

/-- A sound library whose datasets have the property stays one. -/
def Keeps (property : Dataset → ElementType → Heap → Prop) (before after : Store) : Prop :=
  before.Sound → before.Upholds property → after.Sound ∧ after.Upholds property

variable {store : Store}

namespace Durable

variable {property : Dataset → ElementType → Heap → Prop} (hdurable : Durable property)

include hdurable

theorem withHeap (h : store.Upholds property) {heap : Heap} (hbecomes : store.heap.Becomes heap) :
    { store with heap }.Upholds property := by
  intro hlimit dataset hdataset type htype hlaid
  obtain ⟨_, _, hchanged⟩ := hbecomes
  have hbefore := h (Nat.le_trans hchanged.top_le hlimit) dataset hdataset type htype hlaid
  exact hdurable.becomes hbefore ⟨_, _, hchanged⟩

theorem rules : Rules (Keeps property) where
  refl := fun _ hsound h ↦ ⟨hsound, h⟩
  trans := by
    intro s₁ s₂ s₃ first second hsound h
    obtain ⟨hmiddle, hupholds⟩ := first hsound h
    exact second hmiddle hupholds
  onHeap := by
    intro α x hx store hsound h
    obtain ⟨_, _, hchanged⟩ := hx store.heap hsound.heap
    exact ⟨hsound.withHeap hchanged.sound, hdurable.withHeap h ⟨_, _, hchanged⟩⟩

omit hdurable in
theorem register (type : ElementType) : Preserves (Keeps property) (register type) := by
  intro store hsound h
  refine ⟨staysSound_register type store hsound, fun hlimit dataset hdataset found hfound ↦ ?_⟩
  obtain ⟨held, hheld, _⟩ := hsound.datasets dataset hdataset
  have hafter := Registry.typeOf_of_extends (type.extends_registerIn store.registry) hheld
  obtain rfl := Except.ok.inj (hafter.symm.trans hfound)
  exact h hlimit dataset hdataset held hheld

/-- A new dataset holds zeros, which lead nowhere. -/
theorem createDataset (typeId count : Int) :
    Preserves (Keeps property) (createDataset typeId count) := by
  intro store hsound h
  have hafter := staysSound_createDataset typeId count store hsound
  rcases run_createDataset store typeId count with hsame | ⟨type, n, htype, _, hrun⟩
  · rw [hsame]
    exact ⟨hsound, h⟩
  · rw [hrun] at hafter ⊢
    refine ⟨hafter, fun hlimit dataset hdataset found hfound hlaid ↦ ?_⟩
    rcases List.mem_append.1 hdataset with hdataset | hdataset
    · exact h hlimit dataset hdataset found hfound hlaid
    · obtain rfl := List.mem_singleton.1 hdataset
      obtain ⟨views, hviews⟩ := Contents.ofItems?_of_parts Bytes.IsZero.parts
        (fun _ hzero ↦ found.contents?_of_isZero hzero) found.width n
        (Bytes.isZero_zeros (n * type.size).toNat)
      exact hdurable.of_followed ⟨store.heap, ⟨views, []⟩, hsound.heap,
        ⟨_, _, .refl hsound.heap⟩, hviews store.heap, fun _ ha ↦ absurd ha List.not_mem_nil⟩

/-- A written dataset holds fresh copies, which can be followed right after they were made. -/
theorem write (handle typeId : Int) (buffer : Bytes) :
    Preserves (Keeps property) (write handle typeId buffer) := by
  intro store hsound h
  have hafter := staysSound_write handle typeId buffer store hsound
  rcases write_cases hsound.heap handle typeId buffer with ⟨_, heap, _, _, hrun, hchanged⟩ |
    ⟨dataset, type, stored, copied, freed, hfitting, hcopy, hfree, hrun⟩
  · rw [hrun] at hafter ⊢
    exact ⟨hafter, hdurable.withHeap h ⟨_, _, hchanged⟩⟩
  · obtain ⟨hdataset, _, hheld, hlength⟩ := fitting_eq_ok.1 hfitting
    obtain ⟨_, _, hcopied⟩ := type.evolves_copyEach dataset.count buffer store.heap hsound.heap
    rw [hcopy] at hcopied
    obtain ⟨_, _, hfreed⟩ := type.evolves_freeEach dataset.count dataset.data copied hcopied.sound
    rw [hfree] at hfreed
    rw [hrun] at hafter ⊢
    refine ⟨hafter, fun hlimit d hd found hfound hlaid ↦ ?_⟩
    rcases mem_modify hdataset hd with rfl | hd
    · obtain rfl := Except.ok.inj (hheld.symm.trans hfound)
      have hfits := hsound.fits hdataset hheld hlaid
      obtain ⟨added, hgrown, _, hlimited⟩ :=
        ElementType.contents_of_copyEach hlaid hsound.heap
        (hlength.trans hfits.length_eq) hcopy
      obtain ⟨contents, hcontents, rfl⟩ := hlimited (Nat.le_trans hfreed.top_le hlimit)
      exact hdurable.of_followed ⟨copied, contents, hcopied.sound, ⟨_, _, hfreed⟩, hcontents,
        fun a ha ↦ hgrown.lt_top_of_mem ha⟩
    · have htop := Nat.le_trans hcopied.top_le (Nat.le_trans hfreed.top_le hlimit)
      exact hdurable.becomes (h htop d hd found hfound hlaid) ⟨_, _, hcopied.trans hfreed⟩

/-- Assumes: the property stays when the calls of a run write to memory directly. Then every call
of the run keeps it. -/
theorem upholds {allowed : Store → Call → Prop}
    (hpoke : ∀ store address bytes, allowed store (.poke address bytes) →
      Keeps property store ((onHeap (Heap.write address bytes)).run store).2)
    {capacity : Nat} (h : Runs allowed (empty capacity) store) : store.Upholds property := by
  have hboth : store.Sound ∧ store.Upholds property := by
    induction h with
    | refl => exact ⟨sound_empty capacity, fun _ _ hd ↦ absurd hd List.not_mem_nil⟩
    | @next store call _ hcall ih =>
      have hnext : Keeps property store (call.next store) := by
        refine hdurable.rules.next call store ?_ ?_ ?_ ?_
        · exact fun type _ ↦ register type store
        · exact fun typeId count _ ↦ hdurable.createDataset typeId count store
        · exact fun handle _ typeId buffer ↦ hdurable.write handle typeId buffer
        · rintro address bytes rfl
          exact hpoke store address bytes hcall
      exact hnext ih.1 ih.2
  exact hboth.2

end Durable

/-! ### Runs without direct writes -/

theorem durable_wasFollowed : Durable Dataset.WasFollowed := ⟨id, .becomes⟩

/-- As long as addresses fit, every dataset of a type that is laid out was followed. -/
def Remembers (store : Store) : Prop := store.Upholds Dataset.WasFollowed

/-- The call does not write to memory directly. -/
def Managed (_ : Store) (call : Call) : Prop := ∀ address bytes, call ≠ .poke address bytes

theorem Runs.remembers {capacity : Nat} (h : Runs Managed (empty capacity) store) :
    store.Remembers :=
  durable_wasFollowed.upholds (fun _ address bytes hcall ↦ absurd rfl (hcall address bytes)) h

/-! ### Runs of any calls -/

theorem durable_ledBelow : Durable Dataset.LedBelow where
  of_followed := by
    rintro dataset type heap ⟨first, contents, _, ⟨_, _, hchanged⟩, hcontents, hbelow⟩
    exact ⟨first, contents, hcontents, fun a ha ↦
      Nat.lt_of_lt_of_le (hbelow a ha) hchanged.top_le⟩
  becomes := by
    rintro dataset type before after ⟨followed, contents, hcontents, hbelow⟩ ⟨_, _, hchanged⟩
    exact ⟨followed, contents, hcontents, fun a ha ↦
      Nat.lt_of_lt_of_le (hbelow a ha) hchanged.top_le⟩

/-- Bytes written to memory do not move its top. -/
theorem keeps_ledBelow_poke (address : Int) (bytes : Bytes) :
    Preserves (Keeps Dataset.LedBelow) (onHeap (Heap.write address bytes)) := by
  intro store hsound h
  refine ⟨hsound.withHeap (hsound.heap.write address bytes), fun hlimit ↦ ?_⟩
  rw [onHeap, Action.run_within] at hlimit ⊢
  dsimp only at hlimit ⊢
  have htop : ((Heap.write address bytes).run store.heap).2.top = store.heap.top :=
    hsound.heap.top_write address bytes
  rw [htop] at hlimit
  intro dataset hdataset type htype hlaid
  obtain ⟨followed, contents, hcontents, hbelow⟩ := h hlimit dataset hdataset type htype hlaid
  exact ⟨followed, contents, hcontents, htop ▸ hbelow⟩

/-- In every library that can be reached, datasets led to blocks below the top. -/
theorem Reachable.ledBelow {capacity : Nat} (h : Reachable capacity store) :
    store.Upholds Dataset.LedBelow :=
  durable_ledBelow.upholds (fun store address bytes _ ↦ keeps_ledBelow_poke address bytes store) h

end Store

end Stowage
