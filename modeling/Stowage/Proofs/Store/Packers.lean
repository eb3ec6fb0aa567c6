import Stowage.Proofs.Store.Sound

/-!
# Refused packings

A packer turns values into a buffer and allocates the blocks that the buffer refers to. Whichever
packer it is, its run is a check of the request followed by work on a new ledger, which is settled
(`run_pack`). So a refused packing has freed every block it allocated, each of them once, and
reports the fault that stopped it (`pack_refused`).
-/

set_option autoImplicit false

namespace Stowage

namespace Sequence

/-- A table of sequences is the payload of a sequence whose elements they are. -/
theorem run_packSequences (catalogue : Catalogue) (values : Value) (typeId : Int) (heap : Heap) :
    (packSequences catalogue values typeId).run heap =
      (.ofExcept (catalogue.sequenceElement typeId) >>= fun base ↦
        Ledger.settle List.reverse (encode (.vlen base) values) : Action Heap _).run heap := by
  rw [packSequences, Action.run_bind, Action.run_bind, Action.run_ofExcept]
  rcases catalogue.sequenceElement typeId with fault | base
  · rfl
  · dsimp only
    rcases helements : values.elements? with _ | elements
    · have hrefused : encode (.vlen base) values = Action.refuse .operand := by
        rw [encode, helements]
      rw [hrefused]
      rfl
    · rw [encode, helements]

/-- A buffer of strings is the payload of a sequence of them. -/
theorem run_packStrings (values : Value) (heap : Heap) :
    (packStrings values).run heap =
      (Ledger.settle List.reverse (encode .string values)).run heap := by
  rcases helements : values.elements? with _ | elements
  · have hrefused : encode .string values = Action.refuse .operand := by
      rw [encode, helements]
    rw [hrefused, packStrings, helements]
    rfl
  · rw [packStrings, encode, helements]

end Sequence

namespace Store

/-- A way to pack values into a buffer. -/
inductive Packer where
  /-- Sequences of a registered sequence type. -/
  | sequences (typeId : Int)
  /-- Arrays of a registered array type. -/
  | arrays (typeId : Int)
  /-- Strings. -/
  | strings
  /-- Records of a layout, with or without a heap for their strings. -/
  | records (layout : RecordLayout) (attached : Bool)

namespace Packer

/-- Packs values; the buffer owns the blocks it refers to. -/
def pack : Packer → Value → Action Store Bytes
  | sequences typeId, values => packSequences values typeId
  | arrays typeId, values => packArrays values typeId
  | strings, values => packStrings values
  | records layout attached, values => (·.1) <$> packRecords layout attached values

/-- What a packer does to the heap. -/
def packing (registry : Registry) : Packer → Value → Action Heap (Bytes × List Nat)
  | sequences typeId, values => Sequence.packSequences registry.catalogue values typeId
  | arrays typeId, values => Sequence.packArrays registry.catalogue values typeId
  | strings, values => Sequence.packStrings values
  | records layout attached, values => do
    .ofExcept layout.check
    layout.pack attached values

/-- What is done on a new ledger once the request is checked. -/
def work (registry : Registry) : Packer → Value → Except Fault (Action Ledger Bytes)
  | sequences typeId, values => do
    let base ← registry.catalogue.sequenceElement typeId
    .ok (Sequence.encode (.vlen base) values)
  | arrays typeId, values => do
    let (base, length) ← registry.catalogue.arrayElement typeId
    match values.elements? with
    | none => .error .operand
    | some elements => do
      let size := (ElementType.array base length).size
      let out ← Buffer.zeroed (elements.length * size)
      .ok (Sequence.packArraysFrom base length size 0 elements out)
  | strings, values => .ok (Sequence.encode .string values)
  | records layout attached, values => do
    layout.check
    match values.elements? with
    | none => .error .operand
    | some elements => do
      let out ← Buffer.zeroed (elements.length * layout.size)
      .ok (layout.packFrom attached 0 elements out)

/-- The order in which the blocks of a refused packing are freed. -/
def order : Packer → List Nat → List Nat
  | records _ _ => id
  | _ => List.reverse

theorem order_perm (packer : Packer) (addresses : List Nat) :
    (packer.order addresses).Perm addresses := by
  cases packer with
  | records layout attached => exact List.Perm.refl addresses
  | sequences typeId => exact List.reverse_perm addresses
  | arrays typeId => exact List.reverse_perm addresses
  | strings => exact List.reverse_perm addresses

/-- Nothing but the heap takes part in packing. -/
theorem run_pack (packer : Packer) (values : Value) (store : Store) :
    (packer.pack values).run store =
      (onHeap ((·.1) <$> packer.packing store.registry values)).run store := by
  cases packer with
  | sequences typeId => rfl
  | arrays typeId => rfl
  | strings => rfl
  | records layout attached =>
    rw [pack, Action.run_map, packRecords, packing]
    rcases layout.check with fault | ⟨⟨⟩⟩
    · rfl
    · rw [Action.run_ofExcept_bind_ok rfl, onHeap, onHeap, Action.run_within, Action.run_within,
        Action.run_map, Action.run_ofExcept_bind_ok rfl]

/-- Once a request is checked, packing is settled work on a new ledger. -/
theorem run_packing (registry : Registry) (packer : Packer) (values : Value) (heap : Heap) :
    (packer.packing registry values).run heap =
      (.ofExcept (packer.work registry values) >>= Ledger.settle packer.order : Action Heap _).run
        heap := by
  cases packer with
  | sequences typeId =>
    rw [packing, Sequence.run_packSequences, work]
    rcases registry.catalogue.sequenceElement typeId with fault | base <;> rfl
  | arrays typeId =>
    rw [packing, Sequence.packArrays, work]
    rcases registry.catalogue.arrayElement typeId with fault | ⟨base, length⟩
    · rfl
    · rw [Action.run_ofExcept_bind_ok rfl, Outcome.ok_bind]
      dsimp only
      rcases values.elements? with _ | elements
      · rfl
      · dsimp only
        rcases Buffer.zeroed (elements.length * (ElementType.array base length).size) with
          fault | out <;> rfl
  | strings => exact Sequence.run_packStrings values heap
  | records layout attached =>
    rw [packing, RecordLayout.pack, work]
    rcases layout.check with fault | ⟨⟨⟩⟩
    · rfl
    · rw [Action.run_ofExcept_bind_ok rfl, Outcome.ok_bind]
      rcases values.elements? with _ | elements
      · rfl
      · dsimp only
        rcases Buffer.zeroed (elements.length * layout.size) with fault | out <;> rfl

/-- Whatever the packer, its work notes what it allocates. -/
theorem accounts_work {registry : Registry} {packer : Packer} {values : Value}
    {work : Action Ledger Bytes} (h : packer.work registry values = .ok work) :
    Ledger.Accounts work := by
  cases packer with
  | sequences typeId =>
    obtain ⟨base, _, hwork⟩ := Outcome.bind_eq_ok.1 h
    obtain rfl := Except.ok.inj hwork
    exact Sequence.accounts_encode _ _
  | arrays typeId =>
    obtain ⟨⟨base, length⟩, _, hwork⟩ := Outcome.bind_eq_ok.1 h
    dsimp only at hwork
    split at hwork
    · exact absurd hwork (by simp)
    · obtain ⟨out, _, hwork⟩ := Outcome.bind_eq_ok.1 hwork
      obtain rfl := Except.ok.inj hwork
      exact Sequence.accounts_packArraysFrom _ _ _ _ _ _
  | strings =>
    obtain rfl := Except.ok.inj h
    exact Sequence.accounts_encode _ _
  | records layout attached =>
    obtain ⟨⟨⟩, _, hwork⟩ := Outcome.bind_eq_ok.1 h
    split at hwork
    · exact absurd hwork (by simp)
    · obtain ⟨out, _, hwork⟩ := Outcome.bind_eq_ok.1 hwork
      obtain rfl := Except.ok.inj hwork
      exact layout.accounts_packFrom _ _ _ _

theorem packs_packing (registry : Registry) (packer : Packer) (values : Value) :
    Packs (packer.packing registry values) := by
  cases packer with
  | sequences typeId => exact Sequence.packs_packSequences registry values typeId
  | arrays typeId => exact Sequence.packs_packArrays registry values typeId
  | strings => exact Sequence.packs_packStrings values
  | records layout attached =>
    exact packs_ofExcept_bind layout.notMemory_check fun _ ↦ layout.packs_pack attached values

variable {store after : Store} {packer : Packer} {values : Value} {fault : Fault}

/-- A packing is refused as what it does to the heap is. -/
theorem run_pack_eq_error (h : (packer.pack values).run store = (.error fault, after)) :
    (packer.packing store.registry values).run store.heap = (.error fault, after.heap) ∧
      after = { store with heap := after.heap } := by
  rw [run_pack, onHeap, Action.run_within, Action.run_map] at h
  rcases hpacking : (packer.packing store.registry values).run store.heap with ⟨found | ⟨out⟩, heap⟩
  · rw [hpacking] at h
    obtain ⟨hfault, rfl⟩ := Prod.mk.inj h
    obtain rfl := Except.error.inj hfault
    exact ⟨rfl, rfl⟩
  · rw [hpacking] at h
    exact absurd (Prod.mk.inj h).1 (by simp [Except.map])

/-- A packing succeeds as what it does to the heap does. -/
theorem run_pack_eq_ok {out : Bytes} (h : (packer.pack values).run store = (.ok out, after)) :
    ∃ addresses, (packer.packing store.registry values).run store.heap =
      (.ok (out, addresses), after.heap) ∧ after = { store with heap := after.heap } := by
  rw [run_pack, onHeap, Action.run_within, Action.run_map] at h
  obtain ⟨houtcome, rfl⟩ := Prod.mk.inj h
  obtain ⟨⟨_, addresses⟩, hpacked, rfl⟩ := Outcome.map_eq_ok.1 houtcome
  exact ⟨addresses, Prod.ext hpacked rfl, rfl⟩

/-- A refused packing was refused by the checks, or its work was stopped and what the work had noted
was freed. -/
theorem work_of_refused (hsound : store.heap.Sound) {heap : Heap}
    (h : (packer.packing store.registry values).run store.heap = (.error fault, heap)) :
    (packer.work store.registry values = .error fault ∧ heap = store.heap) ∨
      ∃ work ledger, packer.work store.registry values = .ok work ∧
        work.run ⟨store.heap, []⟩ = (.error fault, ledger) ∧ (packer.order ledger.owned).Nodup ∧
        (Heap.freeAll (packer.order ledger.owned)).run ledger.heap = (.ok (), heap) := by
  rw [run_packing] at h
  rcases hwork : packer.work store.registry values with found | work
  · rw [hwork] at h
    obtain ⟨hfault, rfl⟩ := Prod.mk.inj h
    exact .inl ⟨congrArg _ (Except.error.inj hfault), rfl⟩
  · rw [hwork, Action.run_ofExcept_bind_ok rfl] at h
    rcases Ledger.settle_cases (accounts_work hwork).tracks packer.order_perm hsound with
      ⟨out, ledger, _, hsettled, _⟩ | ⟨found, ledger, last, hstopped, hsettled, hnodup, hfreed, _⟩
    · exact absurd (Prod.mk.inj (hsettled.symm.trans h)).1 (by simp)
    · obtain ⟨hfault, rfl⟩ := Prod.mk.inj (hsettled.symm.trans h)
      obtain rfl := Except.error.inj hfault
      exact .inr ⟨work, ledger, rfl, hstopped, hnodup, hfreed⟩

/-- Records that are refused leave the addresses that were noted before them. -/
theorem packNoting_of_refused {layout : RecordLayout} {attached : Bool} {heap : Heap}
    (h : ((records layout attached).packing store.registry values).run store.heap =
      (.error fault, heap)) (allocated : List Nat) :
    (layout.packNoting attached values).run ⟨store.heap, allocated⟩ =
      (.error fault, ⟨heap, allocated⟩) := by
  rw [packing] at h
  rcases hcheck : layout.check with found | ⟨⟨⟩⟩
  · rw [Action.run_ofExcept_bind_error hcheck] at h
    obtain ⟨hfault, rfl⟩ := Prod.mk.inj h
    obtain rfl := Except.error.inj hfault
    exact Action.run_ofExcept_bind_error hcheck _ _
  · rw [Action.run_ofExcept_bind_ok hcheck] at h
    exact RecordLayout.run_packNoting_error hcheck h

/-- Assumes: a library after any calls, and a packing that is refused. The live blocks are those
from before, with the same bytes, and nothing else of the library has changed. The memory refused
nothing on the way, so no cleanup was refused: either the checks refused the request, or the fault
is the one that stopped the work, and the blocks that the work had noted, no two of them the same,
were freed in order. Records leave the addresses that their caller had noted. -/
theorem leaves_live_of_refused {capacity : Nat} (hreachable : Reachable capacity store)
    (hrun : (packer.pack values).run store = (.error fault, after)) :
    (after.heap.liveBlocks = store.heap.liveBlocks ∧ after = { store with heap := after.heap }) ∧
    (∀ cause, fault ≠ .memory cause) ∧
    ((packer.work store.registry values = .error fault ∧ after.heap = store.heap) ∨
      ∃ work ledger, packer.work store.registry values = .ok work ∧
        work.run ⟨store.heap, []⟩ = (.error fault, ledger) ∧ (packer.order ledger.owned).Nodup ∧
        (Heap.freeAll (packer.order ledger.owned)).run ledger.heap = (.ok (), after.heap)) ∧
    ∀ layout attached, packer = records layout attached → ∀ allocated,
      (layout.packNoting attached values).run ⟨store.heap, allocated⟩ =
        (.error fault, ⟨after.heap, allocated⟩) := by
  have hsound := hreachable.sound.heap
  obtain ⟨hpacking, hafter⟩ := run_pack_eq_error hrun
  have hkept : store.heap.Changed after.heap [] [] ∧ ∀ cause, fault ≠ .memory cause := by
    rcases packer.packs_packing store.registry values store.heap hsound with
      ⟨out, _, _, hpacked, _⟩ | ⟨found, heap, hrefused, hchanged, hfault⟩
    · exact absurd (Prod.mk.inj (hpacked.symm.trans hpacking)).1 (by simp)
    · obtain ⟨hsame, rfl⟩ := Prod.mk.inj (hrefused.symm.trans hpacking)
      obtain rfl := Except.error.inj hsame
      exact ⟨hchanged, hfault⟩
  refine ⟨⟨hkept.1.liveBlocks_eq, hafter⟩, hkept.2, work_of_refused hsound hpacking, ?_⟩
  rintro layout attached rfl allocated
  exact packNoting_of_refused hpacking allocated

/-- A library with one block of memory and sequences of records with a string. -/
def listing : Store :=
  (Call.register (.vlen (.compound (.cons "id" 0 (.number .int32) (.cons "name" 8 .string .nil))
    16))).next <| (Call.poke 8 [1, 2]).next <| (Call.allocate 2).next (empty 0)

/-- Two sequences of records; the last record has a text in place of a number. -/
def misplaced : Value :=
  .list [.list [.tuple [.int 1, .text "one"]],
    .list [.tuple [.int 2, .text "two"], .tuple [.text "three", .text "3"]]]

/-- The strings and the payload allocated before the misplaced text are gone again. -/
theorem leaves_live_of_refused_misplaced : ∃ after,
    ((sequences 4).pack misplaced).run listing = (.error (.conversion (.field "id")), after) ∧
      after.heap.liveBlocks = [⟨8, [1, 2], true⟩] ∧ 3 < after.heap.blocks.length := by
  have hreachable : Reachable 0 listing :=
    .next (.next (.next .refl trivial) trivial) trivial
  have hrefused : (((sequences 4).pack misplaced).run listing).1 =
      .error (.conversion (.field "id")) := by decide +kernel
  have hlive := leaves_live_of_refused hreachable (Prod.ext hrefused rfl)
  exact ⟨_, Prod.ext hrefused rfl, hlive.1.1, by decide +kernel⟩

end Packer

end Store

end Stowage
