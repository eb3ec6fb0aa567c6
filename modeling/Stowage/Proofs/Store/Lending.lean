import Stowage.Proofs.Store.Ownership

/-!
# Lent blocks

Between two calls the live blocks are those that the datasets lead to. During a call some more are
live: those of a buffer that was packed or read and has not been reclaimed yet. `Store.Balanced`
counts both, with every block once. The steps of a call keep the balance (`Balanced.change`,
`Balanced.replace`), whatever they lend, take back, or put into a dataset.
-/

set_option autoImplicit false

namespace Stowage

/-! ### Lists that correspond -/

section Correspond

variable {α β : Type} {r : α → β → Prop} {as : List α} {bs : List β}

theorem forall₂_imp_of_mem {s : α → β → Prop} (h : List.Forall₂ r as bs)
    (hs : ∀ a b, r a b → b ∈ bs → s a b) : List.Forall₂ s as bs := by
  induction h with
  | nil => exact .nil
  | cons hhead _ ih =>
    refine .cons (hs _ _ hhead List.mem_cons_self) (ih fun a b hab hb ↦ ?_)
    exact hs a b hab (List.mem_cons_of_mem _ hb)

/-- Corresponding lists can be taken apart at an index, and correspond again when the elements there
are replaced by others that do. -/
theorem forall₂_modify (h : List.Forall₂ r as bs) {i : Nat} {a : α} (hi : as[i]? = some a) :
    ∃ first b others, bs = first ++ b :: others ∧ r a b ∧
      ∀ {s : α → β → Prop} (f : α → α) (c : β), s (f a) c →
        (∀ a b, r a b → b ∈ first ++ others → s a b) →
        List.Forall₂ s (as.modify i f) (first ++ c :: others) := by
  induction h generalizing i with
  | nil => exact absurd hi (by simp)
  | @cons head b as bs hhead hrest ih =>
    cases i with
    | zero =>
      obtain rfl := Option.some.inj hi
      exact ⟨[], b, bs, rfl, hhead,
        fun f c hc hothers ↦ .cons hc (forall₂_imp_of_mem hrest hothers)⟩
    | succ i =>
      obtain ⟨first, b', others, rfl, hb', hmodify⟩ := ih hi
      refine ⟨b :: first, b', others, rfl, hb', fun f c hc hothers ↦ .cons ?_ ?_⟩
      · exact hothers _ _ hhead List.mem_cons_self
      · exact hmodify f c hc fun a b hab hmem ↦ hothers a b hab (List.mem_cons_of_mem _ hmem)

end Correspond

/-- What is live after a change is what was kept and what was added. -/
theorem Heap.Changed.liveStarts_perm {before after : Heap} {freed added kept : List Nat}
    (h : before.Changed after freed added) (hsound : before.Sound)
    (hbefore : (liveStarts before.blocks).Perm (freed ++ kept)) :
    (liveStarts after.blocks).Perm (kept ++ added) := by
  obtain ⟨fresh, hblocks, _, rfl⟩ := h.blocks_eq
  have hnodup : (freed ++ kept).Nodup := hbefore.nodup_iff.1 (nodup_liveStarts hsound.stacked)
  have hfreed : freed.filter (fun a ↦ decide (a ∉ freed)) = [] :=
    List.filter_eq_nil_iff.2 fun a ha ↦ by simpa using ha
  have hkept : kept.filter (fun a ↦ decide (a ∉ freed)) = kept :=
    List.filter_eq_self.2 fun a ha ↦
      decide_eq_true fun hmem ↦ (List.nodup_append.1 hnodup).2.2 a hmem a ha rfl
  have hold := hbefore.filter fun a ↦ decide (a ∉ freed)
  rw [List.filter_append, hfreed, hkept, List.nil_append] at hold
  rw [hblocks, liveStarts_append, liveStarts_release]
  exact ((List.reverse_perm _).symm.append hold).trans List.perm_append_comm

namespace Store

/-- The datasets lead to the given blocks, one list for each dataset. -/
def Leads (store : Store) (owned : List (List Nat)) : Prop :=
  List.Forall₂ (fun dataset blocks ↦ ∃ contents,
    dataset.contents? store = some contents ∧ contents.blocks = blocks) store.datasets owned

/-- The live blocks are those that the datasets lead to and the lent ones, each of them once. -/
def Balanced (store : Store) (lent : List Nat) : Prop :=
  ∃ owned, store.Leads owned ∧
    (Heap.liveStarts store.heap.blocks).Perm (owned.flatten ++ lent)

variable {store : Store} {handle typeId : Int} {dataset : Dataset} {type : ElementType}
  {lent kept freed added : List Nat} {heap : Heap}

/-- Datasets are followed the same way in a heap that keeps the reads. -/
theorem contents?_of_keepsReads {addresses : Nat → Prop}
    (hkeeps : Heap.KeepsReads addresses store.heap heap) {contents : Contents}
    (h : dataset.contents? store = some contents) (hblocks : ∀ a ∈ contents.blocks, addresses a)
    {datasets : List Dataset} :
    dataset.contents? { store with heap, datasets } = some contents := by
  unfold Dataset.contents? at h ⊢
  dsimp only
  split at h
  · exact ElementType.contentsEach?_of_keepsReads hkeeps h hblocks
  · exact absurd h (by simp)

theorem isLive_of_perm {blocks : List Nat} (h : (Heap.liveStarts heap.blocks).Perm blocks)
    {a : Nat} :
    heap.isLive a = true ↔ a ∈ blocks := by
  rw [Heap.isLive_natCast, ← h.mem_iff, Heap.mem_liveStarts]

theorem nodup_of_perm (hsound : heap.Sound) {blocks : List Nat}
    (h : (Heap.liveStarts heap.blocks).Perm blocks) : blocks.Nodup :=
  h.nodup_iff.1 (Heap.nodup_liveStarts hsound.stacked)

namespace Balanced

theorem holds (h : store.Balanced lent) (hsound : store.heap.Sound) : store.heap.Holds lent := by
  obtain ⟨owned, _, hlive⟩ := h
  refine ⟨(List.nodup_append.1 (nodup_of_perm hsound hlive)).2.1, fun a ha ↦ ?_⟩
  exact (isLive_of_perm hlive).2 (List.mem_append_right _ ha)

/-- Assumes: a change that frees lent blocks only. What is lent afterwards are the other lent blocks
and the added ones. -/
theorem change (h : store.Balanced lent) (hsound : store.heap.Sound)
    (hchanged : store.heap.Changed heap freed added) (hlent : lent.Perm (freed ++ kept)) :
    { store with heap }.Balanced (kept ++ added) := by
  obtain ⟨owned, hleads, hlive⟩ := h
  have hsplit : (Heap.liveStarts store.heap.blocks).Perm (freed ++ (owned.flatten ++ kept)) := by
    refine hlive.trans ((hlent.append_left _).trans (List.perm_iff_count.2 fun a ↦ ?_))
    simp only [List.count_append]
    omega
  have hnodup := nodup_of_perm hsound hsplit
  refine ⟨owned, forall₂_imp_of_mem hleads fun d blocks hd hmem ↦ ?_, ?_⟩
  · obtain ⟨contents, hcontents, rfl⟩ := hd
    refine ⟨contents, contents?_of_keepsReads (hchanged.keepsReads hsound) hcontents ?_, rfl⟩
    intro a ha
    have howned := List.mem_flatten_of_mem hmem ha
    refine ⟨(isLive_of_perm hlive).2 (List.mem_append_left _ howned), fun hfreed ↦ ?_⟩
    exact (List.nodup_append.1 hnodup).2.2 a hfreed a (List.mem_append_left _ howned) rfl
  · rw [← List.append_assoc]
    exact hchanged.liveStarts_perm hsound hsplit

/-- A dataset owns blocks that are not lent. When these are freed and the dataset takes bytes that
lead to what was added for it, the balance is kept. -/
theorem replace (h : store.Balanced lent) (hsound : store.heap.Sound)
    (hdataset : store.dataset handle = .ok dataset) :
    ∃ own, store.Owns handle own ∧ (∀ a ∈ lent, store.heap.isLive a = true ∧ a ∉ own) ∧
      ∀ {heap : Heap} {added : List Nat} {data : Bytes}, store.heap.Changed heap own added →
        (∃ contents, { dataset with data }.contents? { store with heap } = some contents ∧
          contents.blocks = added) →
        { store with
          heap
          datasets := store.datasets.modify (handle - 1).toNat fun d ↦ { d with data } }.Balanced
            lent := by
  obtain ⟨owned, hleads, hlive⟩ := h
  obtain ⟨first, own, others, rfl, ⟨held, hheld, rfl⟩, hmodify⟩ :=
    forall₂_modify hleads (dataset_eq_ok.1 hdataset).2
  have hsplit : (Heap.liveStarts store.heap.blocks).Perm
      (held.blocks ++ ((first ++ others).flatten ++ lent)) := by
    refine hlive.trans (List.perm_iff_count.2 fun a ↦ ?_)
    simp only [List.flatten_append, List.flatten_cons, List.count_append]
    omega
  have hnodup := nodup_of_perm hsound hsplit
  -- a block on the other side is live and does not belong to the dataset
  have hkept {a : Nat} (ha : a ∈ (first ++ others).flatten ++ lent) :
      store.heap.isLive a = true ∧ a ∉ held.blocks :=
    ⟨(isLive_of_perm hsplit).2 (List.mem_append_right _ ha),
      fun hmem ↦ (List.nodup_append.1 hnodup).2.2 a hmem a ha rfl⟩
  refine ⟨held.blocks, ⟨⟨(List.nodup_append.1 hnodup).1, fun a ha ↦ ?_⟩, _, held, hdataset, hheld,
    rfl⟩, fun a ha ↦ hkept (List.mem_append_right _ ha), ?_⟩
  · exact (isLive_of_perm hsplit).2 (List.mem_append_left _ ha)
  · intro heap added data hchanged hcontents
    refine ⟨first ++ added :: others, ?_, ?_⟩
    · refine hmodify _ added hcontents fun d blocks hd hmem ↦ ?_
      obtain ⟨found, hfound, rfl⟩ := hd
      refine ⟨found, contents?_of_keepsReads (hchanged.keepsReads hsound) hfound ?_, rfl⟩
      exact fun a ha ↦ hkept (List.mem_append_left _ (List.mem_flatten_of_mem hmem ha))
    · refine (hchanged.liveStarts_perm hsound hsplit).trans (List.perm_iff_count.2 fun a ↦ ?_)
      simp only [List.flatten_append, List.flatten_cons, List.count_append]
      omega

/-- Assumes: a buffer that can be followed with the type of any dataset it fits. Writing it keeps
the balance, and what is lent can be read as before. -/
theorem write (h : store.Balanced lent) (hsound : store.Sound) {buffer : Bytes}
    (hbuffer : ∀ dataset type, store.fitting handle typeId buffer.length = .ok (dataset, type) →
      type.Laid ∧ ∃ contents,
        type.contentsEach? store.heap dataset.count buffer = some contents)
    (hlimit : ((Store.write handle typeId buffer).run store).2.heap.top ≤ Heap.addressLimit) :
    ((Store.write handle typeId buffer).run store).2.Balanced lent ∧
      Heap.KeepsReads (· ∈ lent) store.heap
        ((Store.write handle typeId buffer).run store).2.heap := by
  rcases hfitting : store.fitting handle typeId buffer.length with fault | ⟨dataset, type⟩
  · rw [write_unfit hfitting]
    exact ⟨h, fun _ _ _ _ h ↦ h, fun _ _ _ h ↦ h⟩
  · obtain ⟨hdataset, _, hheld, _⟩ := fitting_eq_ok.1 hfitting
    obtain ⟨hlaid, contents, hcontents⟩ := hbuffer dataset type hfitting
    obtain ⟨own, howns, hapart, hreplace⟩ := h.replace hsound.heap hdataset
    obtain ⟨stored, heap, added, hwrite, hchanged, _, hcopied⟩ :=
      exists_write hsound hlaid hfitting hcontents howns
    rw [hwrite] at hlimit ⊢
    obtain ⟨copy, hcopy, hblocks, _⟩ := hcopied hlimit
    refine ⟨hreplace hchanged ⟨copy, ?_, hblocks⟩, (hchanged.keepsReads hsound.heap).mono hapart⟩
    refine Eq.trans (contents?_eq_of_typeOf ?_) hcopy
    exact hheld

end Balanced

end Store

end Stowage
