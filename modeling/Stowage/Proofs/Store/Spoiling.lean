import Stowage.Proofs.Store.Packers

/-!
# Packings that are refused where others succeed

Two packings do the same up to a point where the second one is refused (`Ledger.Spoils`). What the
first would do from there on does not matter, and neither do the checks before, which both pass. The
fault is the one of that point (`Store.Packer.pack_of_spoils`).
-/

set_option autoImplicit false

namespace Stowage

namespace Ledger

variable {α β γ : Type} {holds : Fault → Prop}

/-- Wherever the first action succeeds, the second one is refused with a fault as said. -/
def Spoils (holds : Fault → Prop) (x : Action Ledger α) (y : Action Ledger β) : Prop :=
  ∀ ledger : Ledger, ledger.heap.Sound → ∀ a after, x.run ledger = (.ok a, after) →
    ∃ fault stop, y.run ledger = (.error fault, stop) ∧ holds fault

theorem spoils_ofExcept {outcome : Except Fault α} {other : Except Fault β}
    (h : ∀ a, outcome = .ok a → ∃ fault, other = .error fault ∧ holds fault) :
    Spoils holds (Action.ofExcept outcome) (Action.ofExcept other) := by
  intro ledger _ a after hrun
  obtain ⟨_, houtcome⟩ := Action.run_ofExcept_eq_ok.1 hrun
  obtain ⟨fault, hother, hfault⟩ := h a houtcome
  exact ⟨fault, ledger, by rw [Action.run_ofExcept, hother], hfault⟩

/-- A refused action succeeds nowhere. -/
theorem spoils_refuse (fault : Fault) (y : Action Ledger β) :
    Spoils holds (Action.refuse fault : Action Ledger α) y := by
  intro ledger _ a after hrun
  exact absurd (Prod.mk.inj hrun).1 (by simp)

/-- What follows a refused action does not matter. -/
theorem Spoils.bind {x : Action Ledger α} {y : Action Ledger β} (h : Spoils holds x y)
    {f : α → Action Ledger γ} {g : β → Action Ledger γ} : Spoils holds (x >>= f) (y >>= g) := by
  intro ledger hsound c after hrun
  obtain ⟨a, middle, hfirst, _⟩ := Action.run_bind_eq_ok.1 hrun
  obtain ⟨fault, stop, hrefused, hfault⟩ := h ledger hsound a middle hfirst
  exact ⟨fault, stop, Action.run_bind_error hrefused g, hfault⟩

/-- What is done first is done in both. -/
theorem spoils_bind {x : Action Ledger α} (hx : Accounts x) {f : α → Action Ledger β}
    {g : α → Action Ledger γ} (h : ∀ a, Spoils holds (f a) (g a)) :
    Spoils holds (x >>= f) (x >>= g) := by
  intro ledger hsound b after hrun
  obtain ⟨a, middle, hfirst, hrest⟩ := Action.run_bind_eq_ok.1 hrun
  obtain ⟨_, hchanged, _⟩ := hx.tracks ledger hsound
  rw [hfirst] at hchanged
  obtain ⟨fault, stop, hrefused, hfault⟩ := h a middle hchanged.sound b after hrest
  exact ⟨fault, stop, (Action.run_bind_ok hfirst g).trans hrefused, hfault⟩

theorem spoils_collect {f : α → Action Ledger β} (hf : ∀ a, Accounts (f a)) {a b : α}
    (h : Spoils holds (f a) (f b)) (before after : List α) :
    Spoils holds (Action.collect f (before ++ a :: after))
      (Action.collect f (before ++ b :: after)) := by
  induction before with
  | nil => exact h.bind
  | cons first rest ih => exact spoils_bind (hf first) fun _ ↦ ih.bind

/-- Assumes: a packing that notes what it adds, and an order that keeps all addresses. Settling
changes no fault. -/
theorem Spoils.settle {x y : Action Ledger α} (h : Spoils holds x y) (hy : Accounts y)
    {order : List Nat → List Nat} (horder : ∀ l, (order l).Perm l) {heap after : Heap}
    (hsound : heap.Sound) {result : α × List Nat}
    (hrun : (Ledger.settle order x).run heap = (.ok result, after)) :
    ∃ fault stop, (Ledger.settle order y).run heap = (.error fault, stop) ∧ holds fault := by
  obtain ⟨fault, stop, hrefused, hfault⟩ :=
    h ⟨heap, []⟩ hsound result.1 ⟨after, result.2⟩ (run_settle_eq_ok hrun)
  rcases settle_cases hy.tracks horder hsound with
    ⟨_, _, hpacked, _⟩ | ⟨found, _, last, hstopped, hsettled, _⟩
  · exact absurd (Prod.mk.inj (hpacked.symm.trans hrefused)).1 (by simp)
  · obtain ⟨hsame, _⟩ := Prod.mk.inj (hstopped.symm.trans hrefused)
    exact ⟨found, last, hsettled, Except.error.inj hsame ▸ hfault⟩

end Ledger

open Ledger (Spoils)

variable {holds : Fault → Prop}

/-! ### Records -/

namespace RecordLayout

variable {attached : Bool} {layout : RecordLayout} {records spoiled : Value}
  {elements others : List Value}

/-- Assumes: as many records as others, and others that spoil what the records do. Where the records
are packed, the others are refused. -/
theorem pack_of_spoils (hrecords : records.elements? = some elements)
    (hspoiled : spoiled.elements? = some others) (hlength : others.length = elements.length)
    (h : ∀ out, Spoils holds (layout.packFrom attached 0 elements out)
      (layout.packFrom attached 0 others out)) {heap after : Heap} (hsound : heap.Sound)
    {result : Bytes × List Nat}
    (hrun : (layout.pack attached records).run heap = (.ok result, after)) :
    ∃ fault stop, (layout.pack attached spoiled).run heap = (.error fault, stop) ∧ holds fault := by
  simp only [pack, hrecords] at hrun
  simp only [pack, hspoiled]
  obtain ⟨out, _, hrunZeroed, hsettled⟩ := Action.run_bind_eq_ok.1 hrun
  obtain ⟨rfl, hzeroed⟩ := Action.run_ofExcept_eq_ok.1 hrunZeroed
  rw [hlength, Action.run_ofExcept_bind_ok hzeroed]
  exact (h out).settle (layout.accounts_packFrom attached 0 _ out) (fun l ↦ List.Perm.refl l) hsound
    hsettled

theorem spoils_packNoting (hrecords : records.elements? = some elements)
    (hspoiled : spoiled.elements? = some others) (hlength : others.length = elements.length)
    (h : ∀ out, Spoils holds (layout.packFrom attached 0 elements out)
      (layout.packFrom attached 0 others out)) :
    Spoils holds (layout.packNoting attached records) (layout.packNoting attached spoiled) := by
  intro ledger hsound out after hrun
  obtain ⟨⟨⟩, _, hrunCheck, hrest⟩ := Action.run_bind_eq_ok.1 hrun
  obtain ⟨rfl, hcheck⟩ := Action.run_ofExcept_eq_ok.1 hrunCheck
  obtain ⟨result, middle, hrunPack, _⟩ := Action.run_bind_eq_ok.1 hrest
  rw [Ledger.onHeap, Action.run_within] at hrunPack
  obtain ⟨hpacked, _⟩ := Prod.mk.inj hrunPack
  obtain ⟨fault, stop, hrefused, hfault⟩ :=
    pack_of_spoils hrecords hspoiled hlength h hsound (Prod.ext hpacked rfl)
  exact ⟨fault, _, run_packNoting_error hcheck hrefused, hfault⟩

end RecordLayout

/-! ### Packers -/

namespace Store.Packer

variable {registry : Registry} {packer : Packer} {values spoiled : Value}

/-- Assumes: as many arrays as others, and what is done with them related on every buffer. Both
packings are checked alike, and the works that they come to are related. -/
theorem exists_work_arrays {related : Action Ledger Bytes → Action Ledger Bytes → Prop}
    {typeId : Int} {base : ElementType} {length : Int}
    (hbase : registry.catalogue.arrayElement typeId = .ok (base, length))
    {elements others : List Value} (hvalues : values.elements? = some elements)
    (hspoiled : spoiled.elements? = some others) (hlength : others.length = elements.length)
    (h : ∀ out, related
      (Sequence.packArraysFrom base length (ElementType.array base length).size 0 elements out)
      (Sequence.packArraysFrom base length (ElementType.array base length).size 0 others out))
    {work : Action Ledger Bytes} (hwork : (arrays typeId).work registry values = .ok work) :
    ∃ other, (arrays typeId).work registry spoiled = .ok other ∧ related work other := by
  rw [Packer.work, hbase, Outcome.ok_bind] at hwork ⊢
  simp only [hvalues] at hwork
  simp only [hspoiled, hlength]
  obtain ⟨out, hzeroed, hwork⟩ := Outcome.bind_eq_ok.1 hwork
  obtain rfl := Except.ok.inj hwork
  rw [hzeroed, Outcome.ok_bind]
  exact ⟨_, rfl, h out⟩

variable {store packed : Store}

/-- Assumes: a packing that succeeds in a store with a sound heap, and values that are checked alike
and spoil its work. Packing these is refused. -/
theorem pack_of_spoils (hsound : store.heap.Sound)
    (h : ∀ work, packer.work store.registry values = .ok work →
      ∃ other, packer.work store.registry spoiled = .ok other ∧ Spoils holds work other)
    {out : Bytes} (hrun : (packer.pack values).run store = (.ok out, packed)) :
    ∃ fault after, (packer.pack spoiled).run store = (.error fault, after) ∧ holds fault := by
  obtain ⟨addresses, hpacking, _⟩ := run_pack_eq_ok hrun
  rw [run_packing] at hpacking
  obtain ⟨work, _, hchecked, hsettled⟩ := Action.run_bind_eq_ok.1 hpacking
  obtain ⟨rfl, hwork⟩ := Action.run_ofExcept_eq_ok.1 hchecked
  obtain ⟨other, hother, hspoils⟩ := h work hwork
  obtain ⟨fault, stop, hrefused, hfault⟩ :=
    hspoils.settle (accounts_work hother) packer.order_perm hsound hsettled
  refine ⟨fault, { store with heap := stop }, ?_, hfault⟩
  rw [run_pack, onHeap, Action.run_within, Action.run_map, run_packing,
    Action.run_ofExcept_bind_ok hother, hrefused]
  rfl

end Store.Packer

end Stowage
