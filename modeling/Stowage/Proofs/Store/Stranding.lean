import Stowage.Proofs.Payloads.FirstPayload
import Stowage.Proofs.Store.Sound

/-!
# What refused transfers leave behind

A transfer that is refused on the way does not take back what it did. Copies of payloads that were
made before the refusal stay live, and since neither the dataset nor the buffer of the caller has
taken their addresses, nothing leads to them any more.

So the live blocks are the same after a refused read, or after a write refused while it copied,
exactly when the very first payload was the one that could not be followed
(`CopyRefused.sameLive_iff`). A write can also be refused while it frees what the dataset held,
when the caller has freed some of that before: then all copies stay and some old blocks are gone
(`FreeRefused`). Either way the datasets, the types and the buffer of a reader are as before
(`refused_leaves_copies`).
-/

set_option autoImplicit false

namespace Stowage

open Stowage.Action (Preserves)

namespace Heap

/-- The same blocks are live. -/
def SameLive (before after : Heap) : Prop :=
  ∀ address : Int, after.isLive address = before.isLive address

/-- The second heap has the blocks of the first, and behind them live ones at the given
addresses. -/
structure Gained (before after : Heap) (added : List Nat) : Prop where
  /-- Every block is as it was. -/
  mem_blocks : ∀ block ∈ before.blocks, block ∈ after.blocks
  /-- The added blocks lie behind everything that was there. -/
  top_le_of_mem : ∀ a ∈ added, before.top ≤ a
  /-- Nothing else is live. -/
  isLive_iff : ∀ address : Nat,
    after.isLive address = true ↔ before.isLive address = true ∨ address ∈ added

theorem Gained.refl (heap : Heap) : heap.Gained heap [] :=
  ⟨fun _ h ↦ h, fun _ h ↦ absurd h List.not_mem_nil, fun _ ↦ by simp⟩

theorem Grown.gained {before after : Heap} {added : List Nat} (h : before.Grown after added) :
    before.Gained after added where
  mem_blocks := fun _ hblock ↦ h.mem_of_mem hblock
  top_le_of_mem := fun _ ha ↦ h.top_le_of_mem ha
  isLive_iff := h.isLive_iff

/-- The live blocks are the same exactly when none was gained. -/
theorem Gained.sameLive_iff {before after : Heap} {added : List Nat}
    (h : before.Gained after added) (hsound : before.Sound) :
    before.SameLive after ↔ added = [] := by
  constructor
  · intro hsame
    refine List.eq_nil_iff_forall_not_mem.2 fun a ha ↦ ?_
    have hlive := (h.isLive_iff a).2 (.inr ha)
    rw [hsame a] at hlive
    obtain ⟨block, hblock, _, rfl⟩ := (isLive_natCast a).1 hlive
    have hlt := hsound.stacked.start_lt hblock
    have hle := h.top_le_of_mem _ ha
    omega
  · rintro rfl address
    -- a live address is the start of a block, so it is a natural number
    refine Bool.eq_iff_iff.2 ⟨fun hafter ↦ ?_, fun hbefore ↦ ?_⟩
    · obtain ⟨block, _, _, rfl⟩ := (Heap.isLive_iff address).1 hafter
      exact ((h.isLive_iff block.start).1 hafter).resolve_right List.not_mem_nil
    · obtain ⟨block, _, _, rfl⟩ := (Heap.isLive_iff address).1 hbefore
      exact (h.isLive_iff block.start).2 (.inl hbefore)

/-- Copying elements adds live blocks if their first payload can be followed, and otherwise none. -/
theorem Opens.gained {heap : Heap} {bytes : Bytes} {x : Action Heap Bytes} {first : FirstPayload}
    (h : heap.Opens bytes x first) :
    (∃ added, heap.Gained (x.run heap).2 added ∧ (added = [] ↔ first ≠ .copied)) ∧
      (heap.SameLive (x.run heap).2 ↔ first ≠ .copied) := by
  rcases h.heap_cases with ⟨hfirst, hsame⟩ | ⟨rfl, hsound, address, added, hgrown⟩
  · rw [hsame]
    exact ⟨⟨[], .refl heap, by simp [hfirst]⟩, fun _ ↦ hfirst, fun _ _ ↦ rfl⟩
  · exact ⟨⟨_, hgrown.gained, by simp⟩, (hgrown.gained.sameLive_iff hsound).trans (by simp)⟩

/-- Some live blocks are freed and nothing else happens. -/
def Releases (before after : Heap) : Prop :=
  ∃ freed : List Nat, (∀ a ∈ freed, before.isLive a = true) ∧ after = before.release freed

/-- Freeing frees blocks only, on any heap. -/
theorem staysWithin_releases : StaysWithin Releases free where
  refl := fun heap ↦ ⟨[], fun _ h ↦ absurd h List.not_mem_nil, heap.release_nil.symm⟩
  trans := by
    rintro first second third ⟨freed, hfreed, rfl⟩ ⟨more, hmore, rfl⟩
    refine ⟨freed ++ more, fun a ha ↦ ?_, first.release_release freed more⟩
    rcases List.mem_append.1 ha with ha | ha
    · exact hfreed a ha
    · exact (isLive_release.1 (hmore a ha)).1
  step := by
    intro address heap
    by_cases hlive : heap.isLive address = true
    · obtain ⟨block, _, _, rfl⟩ := (isLive_iff address).1 hlive
      refine ⟨[block.start], fun a ha ↦ ?_, ?_⟩
      · rw [List.mem_singleton.1 ha]
        exact hlive
      · rw [← alter_release]
        simp only [Action.run, free, hlive, if_true, Int.toNat_natCast]
        split <;> rfl
    · rw [free_error hlive]
      exact ⟨[], fun _ h ↦ absurd h List.not_mem_nil, heap.release_nil.symm⟩

end Heap

namespace Store

/-- A transfer was refused while it copied `count` elements. The heap has gained the copies made
until then, and the rest of the library is as it was. -/
structure CopyRefused (before after : Store) (type : ElementType) (count : Nat) (bytes : Bytes) :
    Prop where
  /-- Types and datasets stay. -/
  eq_heap : after = { before with heap := after.heap }
  /-- The copies stay, and there are some unless the first payload could not be followed. -/
  gained : ∃ added, before.heap.Gained after.heap added ∧
    (added = [] ↔ type.firstPayloadEach before.heap.readable count bytes = .refused)
  /-- Nothing is left behind exactly when the first payload could not be followed. -/
  sameLive_iff : before.heap.SameLive after.heap ↔
    type.firstPayloadEach before.heap.readable count bytes = .refused

/-- A transfer was refused while it freed old payloads, after it had copied `count` elements. The
heap has gained all copies and has lost what was freed until then, and the rest of the library is as
it was. -/
structure FreeRefused (before after : Store) (type : ElementType) (count : Nat) (bytes : Bytes) :
    Prop where
  /-- Types and datasets stay. -/
  eq_heap : after = { before with heap := after.heap }
  /-- All copies were made, and then blocks were freed. -/
  gained : ∃ (copied : Heap) (added freed : List Nat), before.heap.Gained copied added ∧
    (added = [] ↔ type.firstPayloadEach before.heap.readable count bytes = .absent) ∧
    (∀ a ∈ freed, copied.isLive a = true) ∧ after.heap = copied.release freed ∧
    ∀ address : Nat, after.heap.isLive address = true ↔
      (before.heap.isLive address = true ∨ address ∈ added) ∧ address ∉ freed

variable {store : Store} {handle typeId : Int} {dataset : Dataset} {type : ElementType}

/-- Copying that is refused leaves the copies made before. -/
theorem copyRefused_of_run (hopen : store.heap.closed = false → store.heap.Sound) {count : Nat}
    {bytes : Bytes} {fault : Fault} {copied : Heap}
    (hcopy : (type.copyEach count bytes).run store.heap = (.error fault, copied)) :
    store.CopyRefused { store with heap := copied } type count bytes := by
  have hopens := ElementType.opens_copyEach hopen type count bytes
  have hpresent := hopens.ne_absent hcopy
  -- there is a first payload, so it is refused when it is not copied
  have hiff : type.firstPayloadEach store.heap.readable count bytes ≠ .copied ↔
      type.firstPayloadEach store.heap.readable count bytes = .refused := by
    generalize type.firstPayloadEach store.heap.readable count bytes = first at hpresent
    cases first <;> simp at hpresent ⊢
  obtain ⟨⟨added, hgained, hadded⟩, hsame⟩ := hopens.gained
  rw [hcopy] at hgained hsame
  exact ⟨rfl, ⟨added, hgained, hadded.trans hiff⟩, hsame.trans hiff⟩

/-- Freeing that is refused leaves all copies, and what it freed before is gone. -/
theorem freeRefused_of_run (hopen : store.heap.closed = false → store.heap.Sound)
    {count old : Nat} {bytes data stored : Bytes} {fault : Fault} {copied freed : Heap}
    (hcopy : (type.copyEach count bytes).run store.heap = (.ok stored, copied))
    (hfree : (type.freeEach old data).run copied = (.error fault, freed)) :
    store.FreeRefused { store with heap := freed } type count bytes := by
  have hopens := ElementType.opens_copyEach hopen type count bytes
  have hfollowed := hopens.ne_refused hcopy
  have hiff : type.firstPayloadEach store.heap.readable count bytes ≠ .copied ↔
      type.firstPayloadEach store.heap.readable count bytes = .absent := by
    generalize type.firstPayloadEach store.heap.readable count bytes = first at hfollowed
    cases first <;> simp at hfollowed ⊢
  obtain ⟨⟨added, hgained, hadded⟩, _⟩ := hopens.gained
  have hreleases := type.preserves_freeEach Heap.staysWithin_releases old data copied
  rw [hcopy] at hgained
  rw [hfree] at hreleases
  obtain ⟨gone, hgone, rfl⟩ := hreleases
  refine ⟨rfl, copied, added, gone, hgained, hadded.trans hiff, hgone, rfl, fun address ↦ ?_⟩
  rw [← hgained.isLive_iff]
  exact Heap.isLive_release

/-- The buffer of a reader takes the new bytes when the read succeeds, and stays otherwise. -/
theorem readInto_eq (store : Store) (handle typeId : Int) (out : Bytes) :
    (readInto handle typeId).run (store, out) =
      match (read handle typeId out.length).run store with
      | (.ok data, after) => (.ok (), (after, data))
      | (.error fault, after) => (.error fault, (after, out)) := by
  have hsize : (Action.reading fun buffered : Store × Bytes ↦
      (.ok buffered.2.length : Except Fault Nat)).run (store, out) =
        (.ok out.length, (store, out)) := rfl
  rw [readInto, Action.run_bind_ok hsize, Action.run_bind, Action.run_within]
  rcases (read handle typeId out.length).run store with ⟨fault | data, after⟩ <;> rfl

theorem read_unfit {size : Nat} {fault : Fault}
    (hfitting : store.fitting handle typeId size = .error fault) :
    (read handle typeId size).run store = (.error fault, store) := by
  rw [read, Action.run_bind_error]
  rw [Action.run_reading, hfitting]

/-- Assumes: a library whose heap is sound unless it was closed. A refused read leaves the buffer of
the reader, and a refused read or write leaves the types and the datasets. When the buffer did not
fit the dataset, nothing at all has happened. Otherwise the copies that were made before the refusal
are left behind; there are none exactly when the first payload could not be followed, or, when a
write was refused after it had copied everything, when there was no payload. -/
theorem refused_leaves_copies (hopen : store.heap.closed = false → store.heap.Sound)
    (handle typeId : Int) :
    (∀ out fault after, (readInto handle typeId).run (store, out) = (.error fault, after) →
      after.2 = out ∧
        (store.fitting handle typeId out.length = .error fault ∧ after.1 = store ∨
          ∃ dataset type, store.fitting handle typeId out.length = .ok (dataset, type) ∧
            store.CopyRefused after.1 type dataset.count dataset.data)) ∧
    ∀ buffer fault after, (write handle typeId buffer).run store = (.error fault, after) →
      store.fitting handle typeId buffer.length = .error fault ∧ after = store ∨
        ∃ dataset type, store.fitting handle typeId buffer.length = .ok (dataset, type) ∧
          (store.CopyRefused after type dataset.count buffer ∨
            store.FreeRefused after type dataset.count buffer) := by
  constructor
  · intro out fault after hrun
    rw [readInto_eq] at hrun
    rcases hfitting : store.fitting handle typeId out.length with cause | ⟨dataset, type⟩
    · rw [read_unfit hfitting] at hrun
      obtain ⟨hcause, rfl⟩ := Prod.mk.inj hrun
      obtain rfl := Except.error.inj hcause
      exact ⟨rfl, .inl ⟨rfl, rfl⟩⟩
    · rw [read_eq hfitting] at hrun
      rcases hcopy : (type.copyEach dataset.count dataset.data).run store.heap with
        ⟨cause | data, copied⟩
      · rw [hcopy] at hrun
        obtain ⟨_, rfl⟩ := Prod.mk.inj hrun
        exact ⟨rfl, .inr ⟨dataset, type, rfl, copyRefused_of_run hopen hcopy⟩⟩
      · rw [hcopy] at hrun
        exact absurd (Prod.mk.inj hrun).1 (by simp)
  · intro buffer fault after hrun
    rcases write_refused hrun with hunfit | ⟨dataset, type, hfitting, hcases⟩
    · exact .inl hunfit
    · refine .inr ⟨dataset, type, hfitting, ?_⟩
      rcases hcases with ⟨copied, hcopy, rfl⟩ | ⟨stored, copied, freed, hcopy, hfree, rfl⟩
      · exact .inl (copyRefused_of_run hopen hcopy)
      · exact .inr (freeRefused_of_run hopen hcopy hfree)

/-- A library with a string, and a dataset of two strings of which the second was freed by the
caller. -/
def bereft : Store :=
  (Call.free 24).next <| (Call.write 1 1 (Bytes.ofNat 8 8 ++ Bytes.ofNat 8 8)).next <|
    (Call.poke 8 [97, 0]).next <| (Call.allocate 2).next <|
      (Call.createDataset 1 2).next <| (Call.register .string).next (empty 0)

/-- A buffer of two strings, of which the second leads nowhere. -/
def dangling : Bytes := Bytes.ofNat 8 8 ++ Bytes.ofNat 8 4096

/-- Reading the dataset is refused at its second string, and writing the buffer at the second string
of the buffer. Copies of the first ones are left behind. -/
theorem refused_leaves_copies_bereft :
    (∃ after, (readInto 1 1).run (bereft, Bytes.zeros 16) = (.error (.memory (.freed 24)), after) ∧
      after.2 = Bytes.zeros 16 ∧ ∃ dataset type,
        bereft.fitting 1 1 16 = .ok (dataset, type) ∧
          bereft.CopyRefused after.1 type dataset.count dataset.data) ∧
    ∃ after, (write 1 1 dangling).run bereft = (.error (.memory (.overrun 0 4096)), after) ∧
      ∃ dataset type, bereft.fitting 1 1 16 = .ok (dataset, type) ∧
        (bereft.CopyRefused after type dataset.count dangling ∨
          bereft.FreeRefused after type dataset.count dangling) := by
  have hreachable : Reachable 0 bereft :=
    .next (.next (.next (.next (.next (.next .refl trivial) trivial) trivial) trivial) trivial)
      trivial
  obtain ⟨hread, hwrite⟩ := refused_leaves_copies (fun _ ↦ hreachable.sound.heap) 1 1
  have hfits : (bereft.fitting 1 1 16).toOption.isSome = true := by decide +kernel
  have hunread : ((readInto 1 1).run (bereft, Bytes.zeros 16)).1 =
      .error (.memory (.freed 24)) := by
    decide +kernel
  have hunwritten : ((write 1 1 dangling).run bereft).1 = .error (.memory (.overrun 0 4096)) := by
    decide +kernel
  refine ⟨⟨_, Prod.ext hunread rfl, ?_⟩, _, Prod.ext hunwritten rfl, ?_⟩
  · obtain ⟨hout, ⟨hunfit, _⟩ | hcopy⟩ := hread _ _ _ (Prod.ext hunread rfl)
    · rw [show bereft.fitting 1 1 16 = _ from hunfit] at hfits
      exact absurd hfits (by simp [Except.toOption])
    · exact ⟨hout, hcopy⟩
  · obtain ⟨hunfit, _⟩ | hcases := hwrite _ _ _ (Prod.ext hunwritten rfl)
    · rw [show bereft.fitting 1 1 16 = _ from hunfit] at hfits
      exact absurd hfits (by simp [Except.toOption])
    · exact hcases

/-- After the refused read and after the refused write, a block is live that was not live before. -/
theorem refused_changes_live :
    (((readInto 1 1).run (bereft, Bytes.zeros 16)).1 = .error (.memory (.freed 24)) ∧
      ¬ bereft.heap.SameLive ((readInto 1 1).run (bereft, Bytes.zeros 16)).2.1.heap) ∧
    ((write 1 1 dangling).run bereft).1 = .error (.memory (.overrun 0 4096)) ∧
      ¬ bereft.heap.SameLive ((write 1 1 dangling).run bereft).2.heap := by
  have hread : ((readInto 1 1).run (bereft, Bytes.zeros 16)).2.1.heap.isLive 32 ≠
      bereft.heap.isLive 32 := by decide +kernel
  have hwrite : ((write 1 1 dangling).run bereft).2.heap.isLive 32 ≠ bereft.heap.isLive 32 := by
    decide +kernel
  exact ⟨⟨by decide +kernel, fun h ↦ hread (h 32)⟩, by decide +kernel, fun h ↦ hwrite (h 32)⟩

end Store

end Stowage
