import Stowage.Proofs.Heap.Change
import Stowage.Proofs.Payloads.Contents

/-!
# Freeing payloads

Freeing an element frees blocks of its contents and nothing else, and all of them when they are held
(`freesBlocks`). The contents may have been followed long before, and some of the blocks may be gone
since: what an address below the old top leads to, if anything, is what it led to then. In
particular the blocks of one part of an element can be freed before the next part is looked at.
-/

set_option autoImplicit false

namespace Stowage

/-- Whenever the action is run later, it frees some of the blocks and does nothing else; it frees
all of them when they are held. -/
structure Heap.Frees (first : Heap) (blocks : List Nat) (x : Action Heap Unit) : Prop where
  /-- Nothing else is freed. -/
  within : ∀ {later : Heap} {gone added : List Nat}, first.Changed later gone added →
    ∃ freed, later.Changed (x.run later).2 freed [] ∧ ∀ a ∈ freed, a ∈ blocks
  /-- What is held is freed. -/
  all : ∀ {later : Heap} {gone added : List Nat}, first.Changed later gone added →
    later.Holds blocks → x.run later = (.ok (), later.release blocks)

namespace Heap.Frees

variable {first : Heap} {blocks blocks' : List Nat} {x y : Action Heap Unit}

theorem pure : first.Frees [] (pure ()) where
  within := fun hlater ↦ ⟨[], .refl hlater.sound, fun _ ha ↦ ha⟩
  all := by
    intro later gone added _ _
    rw [release_nil]
    rfl

theorem free (address : Nat) : first.Frees [address] (Heap.free address) where
  within := by
    intro later gone added hlater
    by_cases hlive : later.isLive address = true
    · rw [free_eq hlater.sound hlive]
      exact ⟨[address], .release hlater.sound _, fun _ ha ↦ ha⟩
    · rw [free_error hlive]
      exact ⟨[], .refl hlater.sound, fun _ ha ↦ absurd ha List.not_mem_nil⟩
  all := fun hlater hholds ↦ free_eq hlater.sound (hholds.isLive address List.mem_cons_self)

/-- One action after the other frees the blocks of both. -/
theorem bind (hx : first.Frees blocks x) (hy : first.Frees blocks' y) :
    first.Frees (blocks ++ blocks') (x >>= fun _ ↦ y) where
  within := by
    intro later gone added hlater
    obtain ⟨freed, hchanged, hfreed⟩ := hx.within hlater
    rw [Action.run_bind]
    rcases hrun : x.run later with ⟨fault | ⟨⟩, middle⟩
    · rw [hrun] at hchanged
      exact ⟨freed, hchanged, fun a ha ↦ List.mem_append_left _ (hfreed a ha)⟩
    · rw [hrun] at hchanged
      obtain ⟨freed', hchanged', hfreed'⟩ := hy.within (hlater.trans hchanged)
      refine ⟨freed ++ freed', hchanged.trans hchanged', fun a ha ↦ ?_⟩
      rcases List.mem_append.1 ha with ha | ha
      · exact List.mem_append_left _ (hfreed a ha)
      · exact List.mem_append_right _ (hfreed' a ha)
  all := by
    intro later gone added hlater hholds
    have hrun := hx.all hlater hholds.left
    have hmiddle := hlater.trans (Changed.release hlater.sound blocks)
    have hrest := hy.all hmiddle hholds.right_release
    rw [release_release] at hrest
    rw [Action.run_bind_ok hrun, hrest]

end Heap.Frees

/-- A block that is live below the old top can be read as before. -/
theorem Heap.Changed.read_of_isLive {before after : Heap} {freed added : List Nat}
    (h : before.Changed after freed added) (hsound : before.Sound) {address count : Nat}
    (hlt : address < before.top) (hlive : after.isLive address = true) {bytes : Bytes}
    (hread : before.read address count = .ok bytes) : after.read address count = .ok bytes := by
  rcases (h.isLive_iff address).1 hlive with hkept | hadded
  · exact (h.keepsReads hsound).read address count hkept bytes hread
  · have hle := h.top_le_of_mem hadded
    omega

/-- Assumes: an address below the top that leads to a payload, and an action on the payload that
frees what it leads to. Reading the payload again, when it succeeds, gives the same bytes, so the
same blocks are freed, and the block of the payload after them. -/
theorem Heap.Frees.reading {first : Heap} (hsound : first.Sound) {address count : Nat}
    (hlt : address < first.top) {payload : Bytes}
    (hread : first.read address count = .ok payload) {blocks : List Nat}
    {f : Bytes → Action Heap Unit} (hf : first.Frees blocks (f payload)) :
    first.Frees (blocks ++ [address])
      ((Action.reading fun heap ↦ heap.read address count) >>= f >>=
        fun _ ↦ Heap.free address) := by
  have hboth := hf.bind (.free address)
  have hrun {later : Heap} (hagain : later.read address count = .ok payload) :
      ((Action.reading fun heap ↦ heap.read address count) >>= f >>= fun _ ↦ Heap.free address).run
        later = (f payload >>= fun _ ↦ Heap.free address).run later := by
    have hreading : (Action.reading fun heap : Heap ↦ heap.read address count).run later =
        (.ok payload, later) := by
      rw [Action.run_reading, hagain]
    rw [Action.run_bind, Action.run_bind_ok hreading, ← Action.run_bind]
  refine ⟨fun {later gone added} hlater ↦ ?_, fun {later gone added} hlater hholds ↦ ?_⟩
  · rcases hagain : later.read address count with fault | again
    · have hreading : (Action.reading fun heap : Heap ↦ heap.read address count).run later =
          (.error fault, later) := by
        rw [Action.run_reading, hagain]
      rw [Action.run_bind, Action.run_bind_error hreading]
      exact ⟨[], .refl hlater.sound, fun _ ha ↦ absurd ha List.not_mem_nil⟩
    · obtain rfl := Except.ok.inj (hread.symm.trans (hlater.read_of_read hlt hagain hsound))
      rw [hrun hagain]
      exact hboth.within hlater
  · have hlive := hholds.isLive address (List.mem_append_right _ List.mem_cons_self)
    rw [hrun (hlater.read_of_isLive hsound hlt hlive hread)]
    exact hboth.all hlater hholds

/-- Freeing an element of the type at any position frees the blocks of its contents. -/
def ElementType.FreesBlocks (type : ElementType) : Prop :=
  ∀ (heap : Heap) (buffer : Bytes) (position : Nat) (contents : Contents), heap.Sound →
    position + type.width ≤ buffer.length →
    type.contents? heap (Bytes.cut buffer position type.width) = some contents →
    (∀ a ∈ contents.blocks, a < heap.top) →
    heap.Frees contents.blocks (type.freeAt position buffer)

/-- Assumes: elements back to back that could be followed in one heap, and that any element of these
blocks is freed with them in another one. There, the elements free theirs one after another. -/
theorem Heap.Frees.iterate {element : ElementType} {followed heap : Heap} {buffer : Bytes}
    {accepts : Nat → Prop}
    (helement : ∀ position contents, position + element.width ≤ buffer.length →
      element.contents? followed (Bytes.cut buffer position element.width) = some contents →
      (∀ a ∈ contents.blocks, accepts a) →
      heap.Frees contents.blocks (element.freeAt (position : Nat) buffer))
    {base first count : Nat} (hfits : base + (first + count) * element.width ≤ buffer.length)
    {contents : Contents}
    (hcontents : Contents.ofItems? (element.contents? followed) element.width count
      (buffer.drop (base + first * element.width)) = some contents)
    (haccepts : ∀ a ∈ contents.blocks, accepts a) :
    heap.Frees contents.blocks (Action.iterate
      (fun k _ ↦ element.freeAt ((base + k * element.width : Nat) : Int) buffer)
      first count ()) := by
  induction count generalizing first contents with
  | zero =>
    obtain rfl := Option.some.inj hcontents
    exact .pure
  | succ count ih =>
    obtain ⟨head, others, hhead, hothers, rfl⟩ := Contents.ofItems?_succ_eq_some.1 hcontents
    have hnext : base + (first + 1) * element.width =
        base + first * element.width + element.width := by
      rw [Nat.add_mul, Nat.one_mul, Nat.add_assoc]
    have hbound : base + (first + 1 + count) * element.width ≤ buffer.length := by
      rw [Nat.add_assoc first 1 count, Nat.add_comm 1 count]
      exact hfits
    have hstep : base + first * element.width + element.width ≤ buffer.length := by
      rw [← hnext]
      refine Nat.le_trans (Nat.add_le_add_left (Nat.mul_le_mul_right _ ?_) _) hbound
      omega
    have hfree := helement _ head hstep hhead fun a ha ↦ haccepts a (List.mem_append_left _ ha)
    rw [List.drop_drop, ← hnext] at hothers
    exact hfree.bind (ih hbound hothers fun a ha ↦ haccepts a (List.mem_append_right _ ha))

/-- Assumes: one element frees its blocks. Elements back to back free theirs one after another. -/
theorem ElementType.FreesBlocks.iterate {element : ElementType} (helement : element.FreesBlocks)
    {heap : Heap} (hsound : heap.Sound) {buffer : Bytes} {base first count : Nat}
    (hfits : base + (first + count) * element.width ≤ buffer.length) {contents : Contents}
    (hcontents : Contents.ofItems? (element.contents? heap) element.width count
      (buffer.drop (base + first * element.width)) = some contents)
    (hbelow : ∀ a ∈ contents.blocks, a < heap.top) :
    heap.Frees contents.blocks (Action.iterate
      (fun k _ ↦ element.freeAt ((base + k * element.width : Nat) : Int) buffer)
      first count ()) :=
  Heap.Frees.iterate (fun position contents hstep hhead hblocks ↦
    helement heap buffer position contents hsound hstep hhead hblocks) hfits hcontents hbelow

namespace ElementType

/-- Elements that hold no addresses lead to no blocks. -/
theorem blocks_eq_nil_of_not_isVariable {element : ElementType} {heap : Heap}
    (hinline : element.isVariable = false) {width count : Nat} {bytes : Bytes} {contents : Contents}
    (hcontents : Contents.ofItems? (element.contents? heap) width count bytes = some contents) :
    contents.blocks = [] := by
  obtain ⟨views, hviews⟩ := Contents.ofItems?_of_inline
    (fun bytes ↦ contents?_of_not_isVariable element hinline bytes) width count bytes
  rw [Option.some.inj (hcontents.symm.trans (hviews heap))]

/-- Freeing an element that is stored inline does nothing. -/
theorem freesBlocks_of_inline {type : ElementType}
    (hfree : ∀ position buffer, type.freeAt position buffer = pure ())
    (hinline : ∀ heap bytes, type.contents? heap bytes = some (.inline bytes)) :
    type.FreesBlocks := by
  intro heap buffer position contents _ _ hcontents _
  obtain rfl := Option.some.inj ((hinline heap _).symm.trans hcontents)
  rw [hfree]
  exact .pure

/-- In any heap, freeing the address of a string frees its block. -/
theorem frees_string {followed : Heap} (heap : Heap) {buffer : Bytes} {position : Nat}
    {contents : Contents} (hfits : position + string.width ≤ buffer.length)
    (hcontents : string.contents? followed (Bytes.cut buffer position string.width) =
      some contents) :
    heap.Frees contents.blocks (string.freeAt position buffer) := by
  have hload : Buffer.loadWord buffer position addressSize =
      .ok (Bytes.toNat (Bytes.cut buffer position addressSize)) := Buffer.loadWord_eq hfits
  have hfree : string.freeAt position buffer =
      if Bytes.toNat (Bytes.cut buffer position addressSize) = Heap.nullAddress then pure ()
      else Heap.free (Bytes.toNat (Bytes.cut buffer position addressSize) : Nat) := by
    rw [freeAt, freeString, hload]
    rfl
  rw [hfree]
  rw [width_string] at hcontents
  rcases Contents.ofString?_eq_some.1 hcontents with ⟨hnull, rfl⟩ | ⟨hnull, text, _, rfl⟩
  · rw [if_pos hnull]
    exact .pure
  · rw [if_neg hnull]
    exact .free _

theorem freesBlocks_string : string.FreesBlocks :=
  fun heap _ _ _ _ hfits hcontents _ ↦ frees_string heap hfits hcontents

/-- Freeing a sequence frees the block that its items lie in, and before it what items with
addresses lead to. -/
theorem frees_vlen {element : ElementType} {followed heap : Heap} {buffer : Bytes} {position : Nat}
    {contents : Contents} (hfits : position + (vlen element).width ≤ buffer.length)
    (hcontents : (vlen element).contents? followed
      (Bytes.cut buffer position (vlen element).width) = some contents)
    (hitems : element.isVariable = true → ∀ (length address : Nat) payload items,
      followed.read address ((length * element.width : Nat) : Int) = .ok payload →
      Contents.ofItems? (element.contents? followed) element.width length payload = some items →
      contents.blocks = items.blocks ++ [address] →
      heap.Frees contents.blocks
        ((Action.reading fun heap ↦ heap.read address (length * element.size)) >>= (fun payload ↦
          Action.iterate (fun k _ ↦ element.freeAt (k * element.size) payload) 0 length ()) >>=
          fun _ ↦ Heap.free address)) :
    heap.Frees contents.blocks ((vlen element).freeAt position buffer) := by
  have hload := Buffer.loadEntry_eq hfits
  rw [width_vlen, entrySize] at hcontents
  have hcases := (Contents.ofSequence?_eq_some rfl rfl).1 hcontents
  rw [freeAt, freeSequence, hload]
  change heap.Frees contents.blocks (if _ then _ else _)
  generalize Bytes.toNat (Bytes.cut (Bytes.cut buffer position 16) 0 8) = length at hcases ⊢
  generalize Bytes.toNat (Bytes.cut (Bytes.cut buffer position 16) 8 8) = address at hcases ⊢
  rcases hcases with ⟨hnull, rfl⟩ | ⟨hnull, payload, items, hread, hfollowed, rfl⟩
  · rw [if_pos hnull]
    exact .pure
  · rw [if_neg hnull]
    by_cases hvariable : element.isVariable = true
    · rw [if_pos hvariable]
      exact hitems hvariable length address payload items hread hfollowed rfl
    · rw [if_neg hvariable,
        blocks_eq_nil_of_not_isVariable (Bool.eq_false_iff.2 hvariable) hfollowed]
      exact Heap.Frees.pure.bind (.free address)

/-- Freeing a sequence frees its items before the block that they lie in. -/
theorem freesBlocks_vlen {element : ElementType} (hlaid : element.Laid)
    (helement : element.FreesBlocks) : (vlen element).FreesBlocks := by
  intro heap buffer position contents hsound hfits hcontents hbelow
  refine frees_vlen hfits hcontents fun _ length address payload items hread hitems hblocks ↦ ?_
  have hpositions (payload : Bytes) :
      (fun (k : Nat) (_ : Unit) ↦ element.freeAt (k * element.size) payload) =
        fun k _ ↦ element.freeAt ((0 + k * element.width : Nat) : Int) payload := by
    funext k _
    rw [hlaid.mul_size, Nat.zero_add]
  rw [hblocks] at hbelow ⊢
  rw [hlaid.mul_size]
  refine Heap.Frees.reading hsound ?_ hread ?_
  · exact hbelow _ (List.mem_append_right _ List.mem_cons_self)
  · rw [hpositions]
    refine helement.iterate hsound ?_ ?_ ?_
    · refine Nat.le_of_eq ?_
      rw [Heap.length_of_read hread, Nat.zero_add, Nat.zero_add]
    · rw [Nat.zero_mul, Nat.add_zero, List.drop_zero]
      exact hitems
    · exact fun a ha ↦ hbelow a (List.mem_append_left _ ha)

/-- Freeing an array frees its elements. -/
theorem freesBlocks_array {element : ElementType} {length : Int}
    (hlaid : (array element length).Laid) (helement : element.FreesBlocks) :
    (array element length).FreesBlocks := by
  intro heap buffer position contents hsound hfits hcontents hbelow
  obtain ⟨items, hitems, rfl⟩ := contents?_array_eq_some.1 hcontents
  have hwidth := hlaid.width_array
  have hpositions : (fun (k : Nat) (_ : Unit) ↦
      element.freeAt ((position : Int) + k * element.size) buffer) =
      fun k _ ↦ element.freeAt ((position + k * element.width : Nat) : Int) buffer := by
    funext k _
    rw [hlaid.1.mul_size, Int.natCast_add]
  rw [freeAt]
  by_cases hvariable : element.isVariable = true
  · rw [hwidth] at hfits hitems
    rw [Bytes.cut, Contents.ofItems?_take (Nat.le_refl _)] at hitems
    have hbound : position + (0 + length.toNat) * element.width ≤ buffer.length := by
      rw [Nat.zero_add, Nat.mul_comm]
      exact hfits
    rw [← Nat.add_zero position, ← Nat.zero_mul element.width] at hitems
    have hall := helement.iterate hsound hbound hitems hbelow
    rw [if_pos hvariable, hpositions]
    exact hall
  · have hnone : items.blocks = [] :=
      blocks_eq_nil_of_not_isVariable (Bool.eq_false_iff.2 hvariable) hitems
    rw [if_neg hvariable, hnone]
    exact .pure

end ElementType

mutual

/-- Assumes: a type that is laid out, and contents whose blocks lie below the top. Freeing the
element, now or later, frees these blocks and nothing else. -/
theorem ElementType.freesBlocks (type : ElementType) (h : type.Laid) : type.FreesBlocks := by
  match type, h with
  | .number _, _ => exact ElementType.freesBlocks_of_inline (fun _ _ ↦ rfl) (fun _ _ ↦ rfl)
  | .fixedString _, _ => exact ElementType.freesBlocks_of_inline (fun _ _ ↦ rfl) (fun _ _ ↦ rfl)
  | .reference _, _ => exact ElementType.freesBlocks_of_inline (fun _ _ ↦ rfl) (fun _ _ ↦ rfl)
  | .enum _ _, _ => exact ElementType.freesBlocks_of_inline (fun _ _ ↦ rfl) (fun _ _ ↦ rfl)
  | .string, _ => exact ElementType.freesBlocks_string
  | .vlen element, h =>
    exact ElementType.freesBlocks_vlen h (ElementType.freesBlocks element h)
  | .array element length, h =>
    exact ElementType.freesBlocks_array h (ElementType.freesBlocks element h.1)
  | .compound members size, h =>
    intro heap buffer position contents hsound hfits hcontents hbelow
    obtain ⟨items, hitems, rfl⟩ := ElementType.contents?_compound_eq_some.1 hcontents
    have hall := Members.freeAt_frees members h.inside hsound hfits hitems hbelow
    exact hall

theorem Members.freeAt_frees (members : Members) {width : Nat} (h : members.Inside width)
    {heap : Heap} {buffer : Bytes} {position : Nat} {contents : Contents} (hsound : heap.Sound)
    (hfits : position + width ≤ buffer.length)
    (hcontents : members.contents? heap (Bytes.cut buffer position width) = some contents)
    (hbelow : ∀ a ∈ contents.blocks, a < heap.top) :
    heap.Frees contents.blocks (members.freeAt position buffer) := by
  match members, h with
  | .nil, _ =>
    obtain rfl := Option.some.inj hcontents
    exact .pure
  | .cons name offset type rest, h =>
    obtain ⟨first, others, hfirst, hothers, rfl⟩ := Members.contents?_cons_eq_some.1 hcontents
    have hstop := h.stop_le _ List.mem_cons_self
    obtain ⟨hoffset, htype, _⟩ := h.laid
    dsimp only at hstop
    have hposition : (position : Int) + offset = ((position + offset.toNat : Nat) : Int) := by
      omega
    have hrest := Members.freeAt_frees rest h.tail hsound hfits hothers
      fun a ha ↦ hbelow a (List.mem_append_right _ ha)
    rw [Members.freeAt]
    by_cases hvariable : type.isVariable = true
    · rw [Bytes.cut_cut buffer hstop] at hfirst
      have hhead := ElementType.freesBlocks type htype heap buffer _ first hsound (by omega) hfirst
        fun a ha ↦ hbelow a (List.mem_append_left _ ha)
      rw [if_pos hvariable, hposition]
      exact hhead.bind hrest
    · -- a member without addresses has no blocks to free
      obtain ⟨views, hviews⟩ := ElementType.contents?_of_not_isVariable type
        (Bool.eq_false_iff.2 hvariable) (Bytes.cut (Bytes.cut buffer position width) offset.toNat
          type.width)
      obtain rfl := Option.some.inj (hfirst.symm.trans (hviews heap))
      rw [if_neg hvariable]
      exact hrest

end

namespace ElementType

variable {type : ElementType} {heap : Heap} {count : Nat} {buffer : Bytes} {contents : Contents}

/-- Freeing elements back to back, now or later, frees the blocks of their contents. -/
theorem freeEach_frees (h : type.Laid) (hsound : heap.Sound)
    (hfits : count * type.width ≤ buffer.length)
    (hcontents : Contents.ofItems? (type.contents? heap) type.width count buffer = some contents)
    (hbelow : ∀ a ∈ contents.blocks, a < heap.top) :
    heap.Frees contents.blocks (type.freeEach count buffer) := by
  have hpositions : (fun (k : Nat) (_ : Unit) ↦ type.freeAt ((k : Int) * type.size) buffer) =
      fun k _ ↦ type.freeAt ((0 + k * type.width : Nat) : Int) buffer := by
    funext k _
    rw [h.mul_size, Nat.zero_add]
  rw [freeEach]
  by_cases hvariable : type.isVariable = true
  · rw [if_pos hvariable, hpositions]
    refine (freesBlocks type h).iterate hsound ?_ ?_ hbelow
    · rw [Nat.zero_add, Nat.zero_add]
      exact hfits
    · rw [Nat.zero_mul, Nat.add_zero, List.drop_zero]
      exact hcontents
  · rw [if_neg hvariable, blocks_eq_nil_of_not_isVariable (Bool.eq_false_iff.2 hvariable) hcontents]
    exact .pure

/-- Freeing no elements does nothing. -/
theorem freeEach_zero (type : ElementType) (buffer : Bytes) : type.freeEach 0 buffer = pure () := by
  unfold freeEach
  split <;> rfl

/-- Freeing elements back to back whose blocks are held. -/
theorem freeEach_eq (h : type.Laid) (hsound : heap.Sound)
    (hfits : count * type.width ≤ buffer.length)
    (hcontents : Contents.ofItems? (type.contents? heap) type.width count buffer = some contents)
    (hholds : heap.Holds contents.blocks) :
    (type.freeEach count buffer).run heap = (.ok (), heap.release contents.blocks) := by
  refine (freeEach_frees h hsound hfits hcontents fun a ha ↦ ?_).all (.refl hsound) hholds
  obtain ⟨block, hblock, _, rfl⟩ := (Heap.isLive_natCast a).1 (hholds.isLive a ha)
  exact hsound.stacked.start_lt hblock

/-- Freeing elements whose blocks were held before the heap grew. -/
theorem freeEach_grown (h : type.Laid) (hsound : heap.Sound)
    (hfits : count * type.width ≤ buffer.length)
    (hcontents : Contents.ofItems? (type.contents? heap) type.width count buffer = some contents)
    (hholds : heap.Holds contents.blocks) {later : Heap} {added : List Nat}
    (hgrown : heap.Grown later added) :
    (type.freeEach count buffer).run later = (.ok (), later.release contents.blocks) :=
  freeEach_eq h hgrown.sound hfits (type.ofItems?_grows _ _ hsound hgrown hcontents)
    (hgrown.holds hholds)

end ElementType

end Stowage
