import Stowage.Proofs.Payloads.Contents

/-!
# Copying payloads

Copying an element never touches what is there: the heap grows, and the bytes of the element are
replaced by bytes that lead to the added blocks only (`Copies`). Copying is refused only when the
element has no contents. When it succeeds, the blocks of the new contents are exactly those that
were added, in order, and the new element looks like the old one.

Addresses are stored in eight bytes, so the new contents are only what they should be as long as
the heap does not outgrow them (`Heap.addressLimit`).
-/

set_option autoImplicit false

namespace Stowage

open Heap (overwrite)

/-- The new bytes take the place of the old ones: they are as many, the bytes at the fixed indices
are the same, their blocks are those that were added, and they look like the old ones if these had
contents. -/
structure Renewed (read : ContentsReader) (fixed : Nat → Prop) (before after : Heap)
    (old new : Bytes) (added : List Nat) : Prop where
  /-- There are as many bytes as before. -/
  length_eq : new.length = old.length
  /-- The fixed bytes stay. -/
  fixed_eq : ∀ index, fixed index → new[index]? = old[index]?
  /-- The added blocks are those of the new bytes. -/
  contents : after.top ≤ Heap.addressLimit → ∃ contents, read after new = some contents ∧
    contents.blocks = added ∧
      ∀ previous, read before old = some previous → contents.views = previous.views

/-- The action replaces the old bytes in a buffer by new ones that lead to fresh copies; it is
refused only when the old bytes have no contents. -/
def Copies (read : ContentsReader) (fixed : Nat → Prop) (old : Bytes) (put : Bytes → Bytes)
    (x : Action Heap Bytes) : Prop :=
  ∀ heap : Heap, heap.Sound → ∃ added, heap.Grown (x.run heap).2 added ∧
    match (x.run heap).1 with
    | .error _ => read heap old = none
    | .ok result => ∃ new, result = put new ∧
      Renewed read fixed heap (x.run heap).2 old new added

/-- Two parts that are renewed one after the other. -/
theorem Renewed.append {first second : ContentsReader} (hfirst : first.Grows)
    (hsecond : second.Grows) {fixed fixed' : Nat → Prop} {before middle after : Heap}
    {old old' new new' : Bytes} {added more : List Nat} (hsound : before.Sound)
    (hgrown : before.Grown middle added) (hmore : middle.Grown after more)
    (h : Renewed first fixed before middle old new added)
    (h' : Renewed second fixed' middle after old' new' more)
    (hlimit : after.top ≤ Heap.addressLimit) :
    ∃ a b, first after new = some a ∧ second after new' = some b ∧
      (a.append b).blocks = added ++ more ∧
      ∀ p q, first before old = some p → second before old' = some q →
        (a.append b).views = (p.append q).views := by
  obtain ⟨a, ha, hadded, haViews⟩ := h.contents (Nat.le_trans hmore.top_le hlimit)
  obtain ⟨b, hb, hmoreBlocks, hbViews⟩ := h'.contents hlimit
  refine ⟨a, b, hfirst hgrown.sound hmore ha, hb, ?_, fun p q hp hq ↦ ?_⟩
  · rw [Contents.blocks_append, hadded, hmoreBlocks]
  · rw [Contents.views_append, Contents.views_append, haViews p hp,
      hbViews q (hsecond hsound hgrown hq)]

/-- Leaving alone what holds no addresses. -/
theorem Copies.pure_of_inline {read : ContentsReader} {fixed : Nat → Prop} {old buffer : Bytes}
    {put : Bytes → Bytes} (hinline : ∃ views, ∀ heap, read heap old = some ⟨views, []⟩)
    (hput : put old = buffer) : Copies read fixed old put (pure buffer) := by
  intro heap hsound
  obtain ⟨views, hviews⟩ := hinline
  refine ⟨[], .refl hsound, old, hput.symm, rfl, fun _ _ ↦ rfl, fun _ ↦ ⟨_, hviews heap, rfl, ?_⟩⟩
  intro previous hprevious
  rw [Option.some.inj ((hviews heap).symm.trans hprevious)]

theorem Copies.congr {read : ContentsReader} {fixed : Nat → Prop} {old old' : Bytes}
    {put put' : Bytes → Bytes} {x : Action Heap Bytes} (h : Copies read fixed old put x)
    (hold : old = old') (hput : ∀ new, new.length = old.length → put new = put' new) :
    Copies read fixed old' put' x := by
  subst hold
  intro heap hsound
  obtain ⟨added, hgrown, houtcome⟩ := h heap hsound
  refine ⟨added, hgrown, ?_⟩
  rcases hrun : (x.run heap).1 with fault | result
  · rw [hrun] at houtcome
    exact houtcome
  · rw [hrun] at houtcome
    obtain ⟨new, hnew, hrenewed⟩ := houtcome
    exact ⟨new, hnew.trans (hput new hrenewed.length_eq), hrenewed⟩

/-- What is copied stays copied when its views are put together to another view. -/
theorem Copies.wrap {read read' : ContentsReader} {fixed : Nat → Prop} {old : Bytes}
    {put : Bytes → Bytes} {x : Action Heap Bytes} (h : Copies read fixed old put x)
    (view : Bytes → List View → View)
    (hread : ∀ heap bytes, read' heap bytes =
      (read heap bytes).map fun c ↦ ⟨[view bytes c.views], c.blocks⟩)
    (hview : ∀ new, new.length = old.length →
      (∀ index, fixed index → new[index]? = old[index]?) → view new = view old) :
    Copies read' (fun _ ↦ False) old put x := by
  intro heap hsound
  obtain ⟨added, hgrown, houtcome⟩ := h heap hsound
  refine ⟨added, hgrown, ?_⟩
  generalize x.run heap = last at houtcome ⊢
  obtain ⟨fault | result, after⟩ := last
  · exact (hread heap old).trans (congrArg (Option.map _) houtcome)
  · obtain ⟨new, hnew, hrenewed⟩ := houtcome
    refine ⟨new, hnew, hrenewed.length_eq, fun _ h ↦ h.elim, fun hlimit ↦ ?_⟩
    obtain ⟨contents, hcontents, hblocks, hviews⟩ := hrenewed.contents hlimit
    refine ⟨⟨[view new contents.views], contents.blocks⟩, ?_, hblocks, fun previous hprevious ↦ ?_⟩
    · exact (hread after new).trans (congrArg (Option.map _) hcontents)
    · rw [hread] at hprevious
      obtain ⟨before, hbefore, rfl⟩ := Option.map_eq_some_iff.1 hprevious
      rw [hview new hrenewed.length_eq hrenewed.fixed_eq, hviews before hbefore]

/-- Assumes: one part of a whole is copied and, however it was renewed, another part is copied after
that, which was not touched. Copying the one and then the other copies the whole. -/
theorem Copies.bind {first second both : ContentsReader} (hfirst : first.Grows)
    (hsecond : second.Grows) {fixed fixed' fixedBoth : Nat → Prop} {old old' whole : Bytes}
    {middle put putBoth : Bytes → Bytes} {put' : Bytes → Bytes → Bytes} {x : Action Heap Bytes}
    {f : Bytes → Action Heap Bytes} (hx : Copies first fixed old put x)
    (hf : ∀ new, new.length = old.length →
      Copies second fixed' (middle new) (put' new) (f (put new)))
    (hbeside : ∀ new, new.length = old.length → ∀ heap,
      second heap (middle new) = second heap old')
    (hparts : ∀ heap c, both heap whole = some c ↔
      ∃ a b, first heap old = some a ∧ second heap old' = some b ∧ c = a.append b)
    (hjoin : ∀ new new', new.length = old.length → new'.length = (middle new).length →
      (∀ index, fixed' index → new'[index]? = (middle new)[index]?) →
      ∃ joined, put' new new' = putBoth joined ∧ joined.length = whole.length ∧
        (∀ index, fixedBoth index → joined[index]? = whole[index]?) ∧
        ∀ heap a b, first heap new = some a → second heap new' = some b →
          both heap joined = some (a.append b)) :
    Copies both fixedBoth whole putBoth (x >>= f) := by
  intro heap hsound
  obtain ⟨added, hgrown, houtcome⟩ := hx heap hsound
  rcases hrun : x.run heap with ⟨fault | result, between⟩
  · rw [hrun] at hgrown houtcome
    rw [Action.run_bind_error hrun]
    refine ⟨added, hgrown, Option.eq_none_iff_forall_ne_some.2 fun c hc ↦ ?_⟩
    obtain ⟨a, _, ha, _⟩ := (hparts heap c).1 hc
    exact absurd (houtcome.symm.trans ha) (by simp)
  · rw [hrun] at hgrown houtcome
    obtain ⟨new, rfl, hrenewed⟩ := houtcome
    have hsame := hbeside new hrenewed.length_eq
    obtain ⟨more, hmore, houtcome⟩ := hf new hrenewed.length_eq between hgrown.sound
    rw [Action.run_bind_ok hrun]
    generalize (f (put new)).run between = last at hmore houtcome ⊢
    obtain ⟨fault | result, after⟩ := last
    · refine ⟨added ++ more, hgrown.trans hmore,
        Option.eq_none_iff_forall_ne_some.2 fun c hc ↦ ?_⟩
      obtain ⟨_, b, _, hb, _⟩ := (hparts heap c).1 hc
      have hkept := (hsame between).trans (hsecond hsound hgrown hb)
      exact absurd (houtcome.symm.trans hkept) (by simp)
    · obtain ⟨new', rfl, hrenewed'⟩ := houtcome
      obtain ⟨joined, hput, hlength, hfixed, hboth⟩ :=
        hjoin new new' hrenewed.length_eq hrenewed'.length_eq hrenewed'.fixed_eq
      refine ⟨added ++ more, hgrown.trans hmore, joined, hput, hlength, hfixed, fun hlimit ↦ ?_⟩
      obtain ⟨a, b, ha, hb, hblocks, hviews⟩ :=
        hrenewed.append hfirst hsecond hsound hgrown hmore hrenewed' hlimit
      refine ⟨a.append b, hboth after a b ha hb, hblocks, fun previous hprevious ↦ ?_⟩
      obtain ⟨p, q, hp, hq, rfl⟩ := (hparts heap previous).1 hprevious
      exact hviews p q hp ((hsame heap).trans hq)

/-! ### Elements back to back -/

/-- Copying an element of the type at any position copies its payloads. -/
def ElementType.CopiesPayloads (type : ElementType) : Prop :=
  ∀ (buffer : Bytes) (position : Nat), position + type.width ≤ buffer.length →
    Copies (fun heap ↦ type.contents? heap) (fun _ ↦ False)
      (Bytes.cut buffer position type.width) (fun new ↦ overwrite position new buffer)
      (type.copyAt position buffer)

/-- Assumes: one element is copied. Elements back to back are copied one after another. -/
theorem ElementType.CopiesPayloads.iterate {element : ElementType}
    (helement : element.CopiesPayloads) {buffer : Bytes} {base first count : Nat}
    (hfits : base + (first + count) * element.width ≤ buffer.length) :
    Copies (fun heap ↦ Contents.ofItems? (element.contents? heap) element.width count)
      (fun _ ↦ False) (Bytes.cut buffer (base + first * element.width) (count * element.width))
      (fun new ↦ overwrite (base + first * element.width) new buffer)
      (Action.iterate
        (fun k buffer ↦ element.copyAt ((base + k * element.width : Nat) : Int) buffer)
        first count buffer) := by
  induction count generalizing first buffer with
  | zero =>
    refine Copies.pure_of_inline ⟨[], fun _ ↦ rfl⟩ ?_
    rw [Nat.zero_mul, Bytes.cut, List.take_zero]
    exact Bytes.overwrite_nil _ buffer
  | succ count ih =>
    have hnext : base + (first + 1) * element.width =
        base + first * element.width + element.width := by
      rw [Nat.add_mul, Nat.one_mul, Nat.add_assoc]
    have hbound : base + (first + 1 + count) * element.width ≤ buffer.length := by
      rw [Nat.add_assoc first 1 count, Nat.add_comm 1 count]
      exact hfits
    have htotal : base + (first + 1) * element.width + count * element.width ≤ buffer.length := by
      rw [Nat.add_assoc, ← Nat.add_mul]
      exact hbound
    rw [hnext] at htotal
    generalize hposition : base + first * element.width = position at *
    have hhead : (Bytes.cut buffer position ((count + 1) * element.width)).take element.width =
        Bytes.cut buffer position element.width := by
      rw [Bytes.cut, Bytes.cut, List.take_take, Nat.min_eq_left]
      exact Nat.le_mul_of_pos_left _ (Nat.succ_pos count)
    have hothers : (Bytes.cut buffer position ((count + 1) * element.width)).drop element.width =
        Bytes.cut buffer (position + element.width) (count * element.width) := by
      rw [Bytes.cut, Bytes.cut, List.drop_take, List.drop_drop, Nat.succ_mul, Nat.add_sub_cancel]
    have hone : (Bytes.cut buffer position element.width).length = element.width :=
      Bytes.length_cut (by omega)
    have hmore : (Bytes.cut buffer (position + element.width) (count * element.width)).length =
        count * element.width := Bytes.length_cut htotal
    have hrest (new : Bytes)
        (hnew : new.length = (Bytes.cut buffer position element.width).length) :
        Copies (fun heap ↦ Contents.ofItems? (element.contents? heap) element.width count)
          (fun _ ↦ False) (Bytes.cut buffer (position + element.width) (count * element.width))
          (fun new' ↦ overwrite (position + element.width) new' (overwrite position new buffer))
          (Action.iterate
            (fun k buffer ↦ element.copyAt ((base + k * element.width : Nat) : Int) buffer)
            (first + 1) count (overwrite position new buffer)) := by
      have hwritten : position + new.length ≤ buffer.length := by omega
      have hlater := @ih (overwrite position new buffer) (first + 1)
        (by rw [Bytes.length_overwrite hwritten]; exact hbound)
      rw [hnext, Bytes.cut_overwrite_outside hwritten (.inr (by omega))] at hlater
      exact hlater
    rw [Action.iterate, hposition]
    refine Copies.bind element.contents?_grows (element.ofItems?_grows element.width count)
      (helement buffer position (by omega)) hrest (fun _ _ _ ↦ rfl) (fun heap c ↦ ?_)
      fun new new' hnew hnew' _ ↦ ⟨new ++ new', ?_, ?_, fun _ h ↦ h.elim, ?_⟩
    · rw [Contents.ofItems?_succ_eq_some, hhead, hothers]
    · rw [← hnew.trans hone]
      exact Bytes.overwrite_overwrite_next (by omega)
    · have hall : position + (count + 1) * element.width ≤ buffer.length := by
        rw [Nat.succ_mul]
        omega
      rw [List.length_append, hnew, hnew', hone, hmore, Bytes.length_cut hall, Nat.succ_mul,
        Nat.add_comm]
    · intro heap a b ha hb
      refine Contents.ofItems?_succ_eq_some.2 ⟨a, b, ?_, ?_, rfl⟩
      · rw [List.take_left' (hnew.trans hone)]
        exact ha
      · rw [List.drop_left' (hnew.trans hone)]
        exact hb

namespace ElementType

/-- What is stored inline stays. -/
theorem copiesPayloads_of_inline {type : ElementType}
    (hcopy : ∀ position buffer, type.copyAt position buffer = pure buffer)
    (hinline : ∀ heap bytes, type.contents? heap bytes = some (.inline bytes)) :
    type.CopiesPayloads := by
  intro buffer position hfits
  rw [hcopy]
  exact Copies.pure_of_inline ⟨_, fun heap ↦ hinline heap _⟩ (Bytes.overwrite_cut hfits)

/-- A string is copied to a new block, and its address takes the place of the old one. -/
theorem copiesPayloads_string : string.CopiesPayloads := by
  intro buffer position hfits heap hsound
  rw [width_string] at hfits ⊢
  have hload := Buffer.loadWord_eq hfits
  rw [copyAt, copyString, Action.run_ofExcept_bind_ok hload]
  generalize hold : Bytes.cut buffer position addressSize = old
  by_cases hnull : Bytes.toNat old = Heap.nullAddress
  · have hinline : ∃ views, ∀ heap, string.contents? heap old = some ⟨views, []⟩ :=
      ⟨_, fun _ ↦ Contents.ofString?_eq_some.2 (.inl ⟨hnull, rfl⟩)⟩
    rw [if_pos hnull]
    exact Copies.pure_of_inline hinline (hold ▸ Bytes.overwrite_cut hfits) heap hsound
  · rw [if_neg hnull]
    rcases hread : heap.readString (Bytes.toNat old) with fault | text
    · have hreading : (Action.reading fun heap : Heap ↦
          heap.readString (Bytes.toNat old)).run heap = (.error fault, heap) := by
        rw [Action.run_reading, hread]
      rw [Action.run_bind_error hreading]
      refine ⟨[], .refl hsound, ?_⟩
      change Contents.ofString? heap old = none
      simp [Contents.ofString?, hnull, hread, Except.toOption]
    · have hreading : (Action.reading fun heap : Heap ↦
          heap.readString (Bytes.toNat old)).run heap = (.ok text, heap) := by
        rw [Action.run_reading, hread]
      have hword : position + (Bytes.ofNat addressSize heap.top).length ≤ buffer.length := by
        rw [Bytes.length_ofNat]
        exact hfits
      rw [Action.run_bind_ok hreading, Action.run_bind_ok (Heap.place_eq hsound (text ++ [0])),
        Action.run_ofExcept, Buffer.storeWord_eq hword]
      refine ⟨[heap.top], .place hsound _, _, rfl, ?_, fun _ h ↦ h.elim, fun hlimit ↦ ?_⟩
      · rw [Bytes.length_ofNat, ← hold, Bytes.length_cut hfits]
      · have haddress := Heap.toNat_top_of_place hlimit
        have htext : Bytes.untilNul text = text := by
          obtain ⟨block, _, _, rfl⟩ := Heap.readString_eq_ok hread
          exact Bytes.untilNul_eq_self fun b hb ↦ Bytes.ne_zero_of_mem_untilNul hb
        have hback := Heap.readString_place hsound text
        rw [htext] at hback
        refine ⟨⟨[.text text], [heap.top]⟩, ?_, rfl, fun previous hprevious ↦ ?_⟩
        · refine Contents.ofString?_eq_some.2 (.inr ⟨?_, text, ?_, ?_⟩)
          · rw [haddress]
            exact hsound.top_ne_null
          · rw [haddress]
            exact hback
          · rw [haddress]
        · rcases Contents.ofString?_eq_some.1 hprevious with ⟨h, _⟩ | ⟨_, text', hread', rfl⟩
          · exact absurd h hnull
          · rw [Except.ok.inj (hread.symm.trans hread')]

end ElementType

/-- Assumes: `inner` copies the items of a payload. A sequence is copied to a new block after its
items, and its length and the new address take the place of the old ones. -/
theorem copies_sequence {item? : ContentsReader} {width : Nat} {size : Int}
    {inner : Nat → Bytes → Action Heap Bytes}
    (hsize : ∀ n : Nat, (n : Int) * size = (n * width : Nat))
    (hgrows : ∀ count, ContentsReader.Grows fun heap ↦ Contents.ofItems? (item? heap) width count)
    (hinner : ∀ length payload, payload.length = length * width →
      Copies (fun heap ↦ Contents.ofItems? (item? heap) width length) (fun _ ↦ False) payload id
        (inner length payload))
    {buffer : Bytes} {position : Nat} (hfits : position + entrySize ≤ buffer.length) :
    Copies (fun heap ↦ Contents.ofSequence? heap (item? heap) width) (fun _ ↦ False)
      (Bytes.cut buffer position entrySize) (fun new ↦ overwrite position new buffer)
      (copySequence size inner position buffer) := by
  intro heap hsound
  have hput := Bytes.overwrite_cut hfits
  have hold := Bytes.length_cut hfits
  have hlengthLt := Buffer.toNat_cut_lt (Bytes.cut buffer position entrySize) 0
  have hload : Buffer.loadEntry buffer position =
      .ok (Bytes.toNat (Bytes.cut (Bytes.cut buffer position entrySize) 0 8),
        Bytes.toNat (Bytes.cut (Bytes.cut buffer position entrySize) 8 8)) :=
    Buffer.loadEntry_eq hfits
  rw [copySequence, Action.run_ofExcept_bind_ok hload]
  generalize Bytes.cut buffer position entrySize = old at *
  generalize hlength : Bytes.toNat (Bytes.cut old 0 8) = length at *
  generalize haddress : Bytes.toNat (Bytes.cut old 8 8) = address at *
  dsimp only
  by_cases hnull : address = Heap.nullAddress
  · rw [if_pos hnull]
    exact Copies.pure_of_inline
      ⟨_, fun heap ↦ Contents.ofSequence?_of_null hlength haddress hnull⟩ hput heap hsound
  · rw [if_neg hnull, hsize]
    rcases hread : heap.read address ((length * width : Nat) : Int) with fault | payload
    · have hreading : (Action.reading fun heap : Heap ↦
          heap.read address ((length * width : Nat) : Int)).run heap = (.error fault, heap) := by
        rw [Action.run_reading, hread]
      rw [Action.run_bind_error hreading]
      exact ⟨[], .refl hsound, Contents.ofSequence?_of_unread hlength haddress hnull hread⟩
    · have hreading : (Action.reading fun heap : Heap ↦
          heap.read address ((length * width : Nat) : Int)).run heap = (.ok payload, heap) := by
        rw [Action.run_reading, hread]
      have hcontents : Contents.ofSequence? heap (item? heap) width old =
          (Contents.ofItems? (item? heap) width length payload).map fun items ↦
            ⟨[.items items.views], items.blocks ++ [address]⟩ :=
        Contents.ofSequence?_of_read hlength haddress hnull hread
      rw [Action.run_bind_ok hreading]
      have hpayload := Heap.length_of_read hread
      obtain ⟨added, hgrown, houtcome⟩ := hinner length payload hpayload heap hsound
      rcases hrun : (inner length payload).run heap with ⟨fault | new, middle⟩
      · rw [hrun] at hgrown houtcome
        rw [Action.run_bind_error hrun]
        refine ⟨added, hgrown, ?_⟩
        change Contents.ofSequence? heap (item? heap) width old = none
        rw [hcontents]
        exact congrArg (Option.map _) houtcome
      · rw [hrun] at hgrown houtcome
        obtain ⟨_, rfl, hrenewed⟩ := houtcome
        have hword : position + (Buffer.entryBytes length middle.top).length ≤ buffer.length := by
          rw [Buffer.length_entryBytes]
          exact hfits
        rw [Action.run_bind_ok hrun, Action.run_bind_ok (Heap.place_eq hgrown.sound _),
          Action.run_ofExcept, Buffer.storeWord_eq hword]
        have hplaced := Heap.Grown.place hgrown.sound new
        refine ⟨added ++ [middle.top], hgrown.trans hplaced, _, rfl, ?_, fun _ h ↦ h.elim, ?_⟩
        · rw [Buffer.length_entryBytes, hold]
          rfl
        · intro hlimit
          obtain ⟨items, hitems, hblocks, hviews⟩ :=
            hrenewed.contents (Nat.le_trans hplaced.top_le hlimit)
          have htop :
              Bytes.toNat (Bytes.cut (Buffer.entryBytes length middle.top) 8 8) = middle.top :=
            (Buffer.toNat_cut_entryBytes_address _ _).trans (Heap.toNat_top_of_place hlimit)
          have hback := Heap.read_place hgrown.sound new
          rw [hrenewed.length_eq, hpayload] at hback
          have hkept := hgrows length hgrown.sound hplaced hitems
          refine ⟨⟨[.items items.views], items.blocks ++ [middle.top]⟩, ?_, ?_, ?_⟩
          · exact (Contents.ofSequence?_of_read
              (Buffer.toNat_cut_entryBytes_length _ hlengthLt) htop
              hgrown.sound.top_ne_null hback).trans (congrArg (Option.map _) hkept)
          · rw [hblocks]
          · intro previous hprevious
            change Contents.ofSequence? heap (item? heap) width old = some previous at hprevious
            rw [hcontents] at hprevious
            obtain ⟨before, hbefore, rfl⟩ := Option.map_eq_some_iff.1 hprevious
            rw [hviews before hbefore]

namespace ElementType

/-- A sequence is copied with its items. -/
theorem copiesPayloads_vlen {element : ElementType} (hlaid : element.Laid)
    (helement : element.CopiesPayloads) : (vlen element).CopiesPayloads := by
  intro buffer position hfits
  rw [copyAt]
  refine copies_sequence (hlaid.mul_size) (element.ofItems?_grows element.width)
    (fun length payload hpayload ↦ ?_) hfits
  have hpositions : (fun (k : Nat) (payload : Bytes) ↦ element.copyAt (k * element.size) payload) =
      fun k payload ↦ element.copyAt ((0 + k * element.width : Nat) : Int) payload := by
    funext k payload
    rw [hlaid.mul_size, Nat.zero_add]
  by_cases hvariable : element.isVariable = true
  · have hbound : 0 + (0 + length) * element.width ≤ payload.length := by
      refine Nat.le_of_eq ?_
      rw [Nat.zero_add, Nat.zero_add, hpayload]
    have hall := helement.iterate hbound
    rw [Nat.zero_mul, Nat.zero_add, ← hpayload, Bytes.cut_zero_length] at hall
    rw [if_pos hvariable, hpositions]
    exact hall.congr rfl fun new hnew ↦ Bytes.overwrite_zero hnew
  · rw [if_neg hvariable]
    refine Copies.pure_of_inline ?_ rfl
    exact Contents.ofItems?_of_inline
      (fun bytes ↦ contents?_of_not_isVariable element (Bool.eq_false_iff.2 hvariable) bytes) _ _ _

/-- An array is copied element by element. -/
theorem copiesPayloads_array {element : ElementType} {length : Int}
    (hlaid : (array element length).Laid) (helement : element.CopiesPayloads) :
    (array element length).CopiesPayloads := by
  intro buffer position hfits
  have hwidth := hlaid.width_array
  have hpositions : (fun (k : Nat) (buffer : Bytes) ↦
      element.copyAt ((position : Int) + k * element.size) buffer) =
      fun k buffer ↦ element.copyAt ((position + k * element.width : Nat) : Int) buffer := by
    funext k buffer
    rw [hlaid.1.mul_size, Int.natCast_add]
  have hread (heap : Heap) (bytes : Bytes) : (array element length).contents? heap bytes =
      (Contents.ofItems? (element.contents? heap) element.width length.toNat bytes).map fun c ↦
        ⟨[.items c.views], c.blocks⟩ := by
    rw [contents?]
    rcases Contents.ofItems? (element.contents? heap) element.width length.toNat bytes with
      _ | c <;>
      rfl
  rw [copyAt]
  by_cases hvariable : element.isVariable = true
  · have hbound : position + (0 + length.toNat) * element.width ≤ buffer.length := by
      rw [Nat.zero_add, Nat.mul_comm, ← hwidth]
      exact hfits
    have hall := helement.iterate hbound
    rw [Nat.zero_mul, Nat.add_zero, Nat.mul_comm, ← hwidth] at hall
    rw [if_pos hvariable, hpositions]
    exact hall.wrap (fun _ views ↦ .items views) hread fun _ _ _ ↦ rfl
  · have hinline := contents?_of_not_isVariable (array element length)
      (Bool.eq_false_iff.2 hvariable) (Bytes.cut buffer position (array element length).width)
    rw [if_neg hvariable]
    exact Copies.pure_of_inline hinline (Bytes.overwrite_cut hfits)

end ElementType

/-! ### Members of a record -/

section Members

variable {name : String} {offset : Int} {type : ElementType} {rest : Members} {width : Nat}
  {buffer : Bytes} {position : Nat}

/-- The bytes of the first member stay when the others are copied. -/
theorem Members.Inside.cut_head (h : (Members.cons name offset type rest).Inside width)
    {old new : Bytes}
    (hfixed : ∀ index, rest.holdsAddressAt index = false → new[index]? = old[index]?) :
    Bytes.cut new offset.toNat type.width = Bytes.cut old offset.toNat type.width := by
  apply List.ext_getElem?
  intro i
  rw [Bytes.getElem?_cut, Bytes.getElem?_cut]
  by_cases hi : i < type.width
  · rw [if_pos hi, if_pos hi]
    exact hfixed _ (h.holdsAddressAt_tail (by omega) (by omega))
  · rw [if_neg hi, if_neg hi]

/-- Copying a record whose first member holds no addresses. -/
theorem Members.copies_cons_inline (h : (Members.cons name offset type rest).Inside width)
    (hinline : type.isVariable = false)
    (hrest : Copies (fun heap ↦ rest.contents? heap) (fun index ↦ rest.holdsAddressAt index = false)
      (Bytes.cut buffer position width) (fun new ↦ overwrite position new buffer)
      (rest.copyAt position buffer)) :
    Copies (fun heap ↦ (Members.cons name offset type rest).contents? heap)
      (fun index ↦ (Members.cons name offset type rest).holdsAddressAt index = false)
      (Bytes.cut buffer position width) (fun new ↦ overwrite position new buffer)
      (rest.copyAt position buffer) := by
  intro heap hsound
  obtain ⟨added, hgrown, houtcome⟩ := hrest heap hsound
  refine ⟨added, hgrown, ?_⟩
  generalize Bytes.cut buffer position width = old at houtcome ⊢
  obtain ⟨views, hviews⟩ := type.contents?_of_not_isVariable hinline
    (Bytes.cut old offset.toNat type.width)
  have hcontents (heap : Heap) : (Members.cons name offset type rest).contents? heap old =
      (rest.contents? heap old).map (Contents.append ⟨views, []⟩) := by
    rw [Members.contents?, hviews heap]
    rcases rest.contents? heap old with _ | c <;> rfl
  generalize (rest.copyAt position buffer).run heap = last at houtcome ⊢
  obtain ⟨fault | result, after⟩ := last
  · exact (hcontents heap).trans (congrArg (Option.map _) houtcome)
  · obtain ⟨new, hnew, hrenewed⟩ := houtcome
    refine ⟨new, hnew, hrenewed.length_eq, fun index hindex ↦ hrenewed.fixed_eq index ?_, ?_⟩
    · exact (Bool.or_eq_false_iff.1 hindex).2
    · intro hlimit
      obtain ⟨contents, hafter, hblocks, hsame⟩ := hrenewed.contents hlimit
      have hhead := h.cut_head hrenewed.fixed_eq
      refine ⟨Contents.append ⟨views, []⟩ contents, ?_, hblocks, fun previous hprevious ↦ ?_⟩
      · exact Members.contents?_cons_eq_some.2 ⟨_, contents, hhead ▸ hviews after, hafter, rfl⟩
      · rw [hcontents] at hprevious
        obtain ⟨before, hbefore, rfl⟩ := Option.map_eq_some_iff.1 hprevious
        rw [Contents.views_append, Contents.views_append, hsame before hbefore]

/-- Copying a record whose first member holds addresses: that member and then the others. -/
theorem Members.copies_cons (h : (Members.cons name offset type rest).Inside width)
    (hvariable : type.isVariable = true) (hfits : position + width ≤ buffer.length)
    (hhead : Copies (fun heap ↦ type.contents? heap) (fun _ ↦ False)
      (Bytes.cut (Bytes.cut buffer position width) offset.toNat type.width)
      (fun new ↦ overwrite (position + offset.toNat) new buffer)
      (type.copyAt ((position + offset.toNat : Nat) : Int) buffer))
    (hrest : ∀ {buffer : Bytes}, position + width ≤ buffer.length →
      Copies (fun heap ↦ rest.contents? heap) (fun index ↦ rest.holdsAddressAt index = false)
        (Bytes.cut buffer position width) (fun new ↦ overwrite position new buffer)
        (rest.copyAt position buffer)) :
    Copies (fun heap ↦ (Members.cons name offset type rest).contents? heap)
      (fun index ↦ (Members.cons name offset type rest).holdsAddressAt index = false)
      (Bytes.cut buffer position width) (fun new ↦ overwrite position new buffer)
      (type.copyAt ((position + offset.toNat : Nat) : Int) buffer >>= rest.copyAt position) := by
  have hstop := h.stop_le _ List.mem_cons_self
  dsimp only at hstop
  have hold := Bytes.length_cut hfits
  have hone : (Bytes.cut (Bytes.cut buffer position width) offset.toNat type.width).length =
      type.width := Bytes.length_cut (by omega)
  have hlater (new : Bytes)
      (hnew : new.length =
        (Bytes.cut (Bytes.cut buffer position width) offset.toNat type.width).length) :
      Copies (fun heap ↦ rest.contents? heap) (fun index ↦ rest.holdsAddressAt index = false)
        (overwrite offset.toNat new (Bytes.cut buffer position width))
        (fun new' ↦ overwrite position new' (overwrite (position + offset.toNat) new buffer))
        (rest.copyAt position (overwrite (position + offset.toNat) new buffer)) := by
    have hwritten : position + offset.toNat + new.length ≤ buffer.length := by omega
    rw [← Bytes.cut_overwrite_around hfits (by omega)]
    exact hrest (by rw [Bytes.length_overwrite hwritten]; exact hfits)
  refine Copies.bind type.contents?_grows rest.contents?_grows hhead hlater
    (fun new hnew heap ↦ ?_) (fun heap c ↦ Members.contents?_cons_eq_some)
    fun new new' hnew hnew' hfixed ↦ ⟨new', ?_, ?_, fun index hindex ↦ ?_, ?_⟩
  -- the others lie beside the first member, so they are the same before and after it is written
  · refine Members.contents?_congr fun m hm ↦ Bytes.cut_overwrite_outside (by omega) ?_
    have hapart := h.head_apart hm
    omega
  · have hlength : new'.length = width := by rw [hnew', Bytes.length_overwrite (by omega), hold]
    exact Bytes.overwrite_overwrite_covered (by omega) (by omega) (by omega)
  · rw [hnew', Bytes.length_overwrite (by omega)]
  · rw [Members.holdsAddressAt_cons, hvariable, Bool.true_and, Bool.or_eq_false_iff,
      decide_eq_false_iff_not] at hindex
    rw [hfixed index hindex.2, Bytes.getElem?_overwrite_outside (by omega) (by omega)]
  · intro heap a b ha hb
    have hheadNew : Bytes.cut new' offset.toNat type.width = new := by
      rw [h.cut_head hfixed, ← hnew.trans hone]
      exact Bytes.cut_overwrite (by omega)
    exact Members.contents?_cons_eq_some.2 ⟨a, b, hheadNew ▸ ha, hb, rfl⟩

end Members

mutual

/-- Assumes: a type that is laid out. Copying an element at any position inside a buffer gives it
fresh copies of everything it leads to. -/
theorem ElementType.copiesPayloads (type : ElementType) (h : type.Laid) :
    type.CopiesPayloads := by
  match type, h with
  | .number _, _ => exact ElementType.copiesPayloads_of_inline (fun _ _ ↦ rfl) (fun _ _ ↦ rfl)
  | .fixedString _, _ => exact ElementType.copiesPayloads_of_inline (fun _ _ ↦ rfl) (fun _ _ ↦ rfl)
  | .reference _, _ => exact ElementType.copiesPayloads_of_inline (fun _ _ ↦ rfl) (fun _ _ ↦ rfl)
  | .enum _ _, _ => exact ElementType.copiesPayloads_of_inline (fun _ _ ↦ rfl) (fun _ _ ↦ rfl)
  | .string, _ => exact ElementType.copiesPayloads_string
  | .vlen element, h =>
    exact ElementType.copiesPayloads_vlen h (ElementType.copiesPayloads element h)
  | .array element length, h =>
    exact ElementType.copiesPayloads_array h (ElementType.copiesPayloads element h.1)
  | .compound members size, h =>
    intro buffer position hfits
    have hall := Members.copies members h.inside hfits
    refine hall.wrap (fun bytes views ↦ .record (members.blank bytes) views) ?_ ?_
    · intro heap bytes
      rw [ElementType.contents?]
      rcases members.contents? heap bytes with _ | c <;> rfl
    · intro new hlength hfixed
      rw [Members.blank_eq hlength hfixed]

/-- Copying the members of a record changes only the bytes in which addresses are stored. -/
theorem Members.copies (members : Members) {width : Nat} (h : members.Inside width)
    {buffer : Bytes} {position : Nat} (hfits : position + width ≤ buffer.length) :
    Copies (fun heap ↦ members.contents? heap) (fun index ↦ members.holdsAddressAt index = false)
      (Bytes.cut buffer position width) (fun new ↦ overwrite position new buffer)
      (members.copyAt position buffer) := by
  match members, h with
  | .nil, _ => exact Copies.pure_of_inline ⟨[], fun _ ↦ rfl⟩ (Bytes.overwrite_cut hfits)
  | .cons name offset type rest, h =>
    have hstop := h.stop_le _ List.mem_cons_self
    obtain ⟨hoffset, htype, _⟩ := h.laid
    dsimp only at hstop
    rw [Members.copyAt]
    by_cases hvariable : type.isVariable = true
    · have hposition : (position : Int) + offset = ((position + offset.toNat : Nat) : Int) := by
        omega
      rw [if_pos hvariable, hposition]
      have hhead := ElementType.copiesPayloads type htype buffer (position + offset.toNat)
        (by omega)
      rw [← Bytes.cut_cut buffer hstop] at hhead
      exact Members.copies_cons h hvariable hfits hhead
        fun hfits ↦ Members.copies rest h.tail hfits
    · rw [if_neg hvariable]
      exact Members.copies_cons_inline h (Bool.eq_false_iff.2 hvariable)
        (Members.copies rest h.tail hfits)

end

namespace ElementType

variable {type : ElementType} {heap after : Heap} {count : Nat} {buffer stored : Bytes}

/-- Elements that fill a buffer are copied together. -/
theorem copies_copyEach (h : type.Laid) (hlength : buffer.length = count * type.width) :
    Copies (fun heap ↦ Contents.ofItems? (type.contents? heap) type.width count) (fun _ ↦ False)
      buffer id (type.copyEach count buffer) := by
  have hpositions : (fun (k : Nat) (buffer : Bytes) ↦ type.copyAt ((k : Int) * type.size) buffer) =
      fun k buffer ↦ type.copyAt ((0 + k * type.width : Nat) : Int) buffer := by
    funext k buffer
    rw [h.mul_size, Nat.zero_add]
  rw [copyEach]
  by_cases hvariable : type.isVariable = true
  · have hbound : 0 + (0 + count) * type.width ≤ buffer.length := by
      refine Nat.le_of_eq ?_
      rw [Nat.zero_add, Nat.zero_add, hlength]
    have hall := (copiesPayloads type h).iterate hbound
    rw [Nat.zero_mul, Nat.zero_add, ← hlength, Bytes.cut_zero_length] at hall
    rw [if_pos hvariable, hpositions]
    exact hall.congr rfl fun new hnew ↦ Bytes.overwrite_zero hnew
  · rw [if_neg hvariable]
    refine Copies.pure_of_inline ?_ rfl
    exact Contents.ofItems?_of_inline
      (fun bytes ↦ contents?_of_not_isVariable type (Bool.eq_false_iff.2 hvariable) bytes) _ _ _

/-- Elements that have contents are copied, and the copies look the same. -/
theorem copyEach_of_contents (h : type.Laid) (hsound : heap.Sound)
    (hlength : buffer.length = count * type.width) {contents : Contents}
    (hcontents : Contents.ofItems? (type.contents? heap) type.width count buffer = some contents) :
    ∃ stored after added, (type.copyEach count buffer).run heap = (.ok stored, after) ∧
      heap.Grown after added ∧ stored.length = buffer.length ∧
      (after.top ≤ Heap.addressLimit → ∃ copied,
        Contents.ofItems? (type.contents? after) type.width count stored = some copied ∧
          copied.blocks = added ∧ copied.views = contents.views) := by
  obtain ⟨added, hgrown, houtcome⟩ := copies_copyEach h hlength heap hsound
  rcases hrun : (type.copyEach count buffer).run heap with ⟨fault | stored, after⟩
  · rw [hrun] at houtcome
    exact absurd (houtcome.symm.trans hcontents) (by simp)
  · rw [hrun] at hgrown houtcome
    obtain ⟨_, rfl, hrenewed⟩ := houtcome
    refine ⟨_, after, added, rfl, hgrown, hrenewed.length_eq, fun hlimit ↦ ?_⟩
    obtain ⟨copied, hcopied, hblocks, hviews⟩ := hrenewed.contents hlimit
    exact ⟨copied, hcopied, hblocks, hviews contents hcontents⟩

/-- Whenever copying elements succeeds, the copies lead to the added blocks only. -/
theorem contents_of_copyEach (h : type.Laid) (hsound : heap.Sound)
    (hlength : buffer.length = count * type.width)
    (hrun : (type.copyEach count buffer).run heap = (.ok stored, after)) :
    ∃ added, heap.Grown after added ∧ stored.length = buffer.length ∧
      (after.top ≤ Heap.addressLimit → ∃ copied,
        Contents.ofItems? (type.contents? after) type.width count stored = some copied ∧
          copied.blocks = added) := by
  obtain ⟨added, hgrown, houtcome⟩ := copies_copyEach h hlength heap hsound
  rw [hrun] at hgrown houtcome
  obtain ⟨_, rfl, hrenewed⟩ := houtcome
  refine ⟨added, hgrown, hrenewed.length_eq, fun hlimit ↦ ?_⟩
  obtain ⟨copied, hcopied, hblocks, _⟩ := hrenewed.contents hlimit
  exact ⟨copied, hcopied, hblocks⟩

end ElementType

end Stowage
