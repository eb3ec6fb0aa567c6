import Stowage.Proofs.Payloads.FirstPayload
import Stowage.Proofs.Payloads.Free
import Stowage.Proofs.Payloads.Positions

/-!
# Freeing another number of elements than a buffer holds

A buffer may be reclaimed with another number of elements than it holds. When there are fewer, their
blocks are freed and those of the others are not; when there are more, the walk goes past the end of
the buffer, where no address can be loaded, and nothing more is freed (`freeEach_some`). How many
blocks elements lead to depends on what they look like and not on where the blocks lie
(`length_blocks_of_views`), and elements that are too narrow for an address lead nowhere
(`blocks_eq_nil_of_narrow`).
-/

set_option autoImplicit false

namespace Stowage

open Stowage.Action (Preserves)

/-! ### Some elements and then others -/

/-- Elements back to back are the first ones and then the others. -/
theorem Contents.ofItems?_add_eq_some {item? : Bytes → Option Contents} {width first others : Nat}
    {bytes : Bytes} {contents : Contents} :
    ofItems? item? width (first + others) bytes = some contents ↔
      ∃ head rest, ofItems? item? width first bytes = some head ∧
        ofItems? item? width others (bytes.drop (first * width)) = some rest ∧
          contents = head.append rest := by
  induction first generalizing bytes contents with
  | zero =>
    rw [Nat.zero_add, Nat.zero_mul, List.drop_zero]
    constructor
    · exact fun h ↦ ⟨.none, contents, rfl, h, rfl⟩
    · rintro ⟨_, rest, hhead, hrest, rfl⟩
      obtain rfl := Option.some.inj hhead
      exact hrest
  | succ first ih =>
    have hdrop : (bytes.drop width).drop (first * width) = bytes.drop ((first + 1) * width) := by
      rw [List.drop_drop, Nat.succ_mul, Nat.add_comm]
    rw [Nat.add_right_comm, ofItems?_succ_eq_some]
    constructor
    · rintro ⟨one, more, hone, hmore, rfl⟩
      obtain ⟨head, rest, hhead, hrest, rfl⟩ := ih.1 hmore
      rw [hdrop] at hrest
      have hmany := ofItems?_succ_eq_some.2 ⟨one, head, hone, hhead, rfl⟩
      refine ⟨one.append head, rest, hmany, hrest, ?_⟩
      simp only [append, List.append_assoc]
    · rintro ⟨_, rest, hfirst, hrest, rfl⟩
      obtain ⟨one, head, hone, hhead, rfl⟩ := ofItems?_succ_eq_some.1 hfirst
      rw [← hdrop] at hrest
      refine ⟨one, head.append rest, hone, ih.2 ⟨head, rest, hhead, hrest, rfl⟩, ?_⟩
      simp only [append, List.append_assoc]

/-- Elements back to back are the first ones, as many as there are up to a number, and those from
this number on. -/
theorem Contents.exists_ofItems?_rest {item? : Bytes → Option Contents} {width count : Nat}
    {bytes : Bytes} {contents : Contents} (h : ofItems? item? width count bytes = some contents)
    (number : Nat) :
    ∃ head rest, ofItems? item? width (min number count) bytes = some head ∧
      ofItems? item? width (count - number) (bytes.drop (number * width)) = some rest ∧
        contents = head.append rest := by
  rcases Nat.le_total number count with hle | hle
  · rw [Nat.min_eq_left hle]
    rw [← Nat.add_sub_of_le hle] at h
    exact ofItems?_add_eq_some.1 h
  · rw [Nat.min_eq_right hle, Nat.sub_eq_zero_of_le hle]
    exact ⟨contents, .none, h, rfl, by simp [append, none]⟩

/-! ### How many blocks there are -/

section Counts

variable {heap other : Heap} {bytes bytes' : Bytes} {contents contents' : Contents}

/-- Assumes: elements of the type that look the same lead to as many blocks. So do as many of them
back to back. -/
theorem Contents.length_blocks_of_ofItems? {type : ElementType}
    (helement : ∀ {bytes bytes' : Bytes} {c c' : Contents}, type.contents? heap bytes = some c →
      type.contents? other bytes' = some c' → c.views = c'.views →
        c.blocks.length = c'.blocks.length) {width count : Nat}
    (h : ofItems? (type.contents? heap) width count bytes = some contents)
    (h' : ofItems? (type.contents? other) width count bytes' = some contents')
    (hviews : contents.views = contents'.views) :
    contents.blocks.length = contents'.blocks.length := by
  induction count generalizing bytes bytes' contents contents' with
  | zero =>
    obtain rfl := Option.some.inj h
    obtain rfl := Option.some.inj h'
    rfl
  | succ count ih =>
    obtain ⟨first, others, hfirst, hothers, rfl⟩ := ofItems?_succ_eq_some.1 h
    obtain ⟨first', others', hfirst', hothers', rfl⟩ := ofItems?_succ_eq_some.1 h'
    obtain ⟨view, hview, _⟩ := ElementType.looksLike_of_contents? hfirst
    obtain ⟨view', hview', _⟩ := ElementType.looksLike_of_contents? hfirst'
    rw [views_append, views_append, hview, hview'] at hviews
    obtain ⟨hsame, hrest⟩ := List.cons.inj hviews
    have hhead := helement hfirst hfirst' (by rw [hview, hview', hsame])
    rw [blocks_append, blocks_append, List.length_append, List.length_append, hhead,
      ih hothers hothers' hrest]

mutual

/-- Elements that look the same lead to as many blocks, wherever these lie. -/
theorem ElementType.length_blocks_of_views (type : ElementType) {bytes bytes' : Bytes}
    {contents contents' : Contents} (h : type.contents? heap bytes = some contents)
    (h' : type.contents? other bytes' = some contents')
    (hviews : contents.views = contents'.views) :
    contents.blocks.length = contents'.blocks.length := by
  match type with
  | .number _ | .fixedString _ | .reference _ | .enum _ _ =>
    obtain rfl := Option.some.inj h
    obtain rfl := Option.some.inj h'
    rfl
  | .string =>
    rcases Contents.ofString?_eq_some.1 h with ⟨_, rfl⟩ | ⟨_, _, _, rfl⟩ <;>
      rcases Contents.ofString?_eq_some.1 h' with ⟨_, rfl⟩ | ⟨_, _, _, rfl⟩
    · rfl
    · exact absurd hviews (by simp)
    · exact absurd hviews (by simp)
    · rfl
  | .vlen element =>
    rcases (Contents.ofSequence?_eq_some rfl rfl).1 h with
        ⟨_, rfl⟩ | ⟨_, _, items, _, hitems, rfl⟩ <;>
      rcases (Contents.ofSequence?_eq_some rfl rfl).1 h' with
        ⟨_, rfl⟩ | ⟨_, _, items', _, hitems', rfl⟩
    · rfl
    · exact absurd hviews (by simp)
    · exact absurd hviews (by simp)
    · -- sequences that look the same have as many items
      have hsame : items.views = items'.views := by simpa using hviews
      have hcount := ElementType.length_views hitems
      rw [hsame, ElementType.length_views hitems'] at hcount
      rw [← hcount] at hitems
      have hlength := Contents.length_blocks_of_ofItems?
        (ElementType.length_blocks_of_views element) hitems hitems' hsame
      rw [List.length_append, List.length_append, hlength, List.length_singleton,
        List.length_singleton]
  | .array element length =>
    obtain ⟨items, hitems, rfl⟩ := ElementType.contents?_array_eq_some.1 h
    obtain ⟨items', hitems', rfl⟩ := ElementType.contents?_array_eq_some.1 h'
    have hsame : items.views = items'.views := by simpa using hviews
    change items.blocks.length = items'.blocks.length
    exact Contents.length_blocks_of_ofItems? (ElementType.length_blocks_of_views element) hitems
      hitems' hsame
  | .compound members size =>
    obtain ⟨items, hitems, rfl⟩ := ElementType.contents?_compound_eq_some.1 h
    obtain ⟨items', hitems', rfl⟩ := ElementType.contents?_compound_eq_some.1 h'
    have hsame : items.views = items'.views := (by simpa using hviews : _ ∧ _).2
    change items.blocks.length = items'.blocks.length
    exact Members.length_blocks_of_views members hitems hitems' hsame

theorem Members.length_blocks_of_views (members : Members) {bytes bytes' : Bytes}
    {contents contents' : Contents} (h : members.contents? heap bytes = some contents)
    (h' : members.contents? other bytes' = some contents')
    (hviews : contents.views = contents'.views) :
    contents.blocks.length = contents'.blocks.length := by
  match members with
  | .nil =>
    obtain rfl := Option.some.inj h
    obtain rfl := Option.some.inj h'
    rfl
  | .cons name offset type rest =>
    obtain ⟨first, others, hfirst, hothers, rfl⟩ := Members.contents?_cons_eq_some.1 h
    obtain ⟨first', others', hfirst', hothers', rfl⟩ := Members.contents?_cons_eq_some.1 h'
    obtain ⟨view, hview, _⟩ := ElementType.looksLike_of_contents? hfirst
    obtain ⟨view', hview', _⟩ := ElementType.looksLike_of_contents? hfirst'
    rw [Contents.views_append, Contents.views_append, hview, hview'] at hviews
    obtain ⟨hsame, hrest⟩ := List.cons.inj hviews
    have hhead := ElementType.length_blocks_of_views type hfirst hfirst'
      (by rw [hview, hview', hsame])
    rw [Contents.blocks_append, Contents.blocks_append, List.length_append, List.length_append,
      hhead, Members.length_blocks_of_views rest hothers hothers' hrest]

end

/-! ### Narrow elements -/

/-- Items that lead nowhere one by one lead nowhere together. -/
theorem Contents.blocks_eq_nil_of_ofItems? {item? : Bytes → Option Contents} {width count : Nat}
    (hitem : 0 < count → ∀ {bytes : Bytes} {c : Contents}, item? bytes = some c → c.blocks = [])
    (h : ofItems? item? width count bytes = some contents) : contents.blocks = [] := by
  induction count generalizing bytes contents with
  | zero =>
    obtain rfl := Option.some.inj h
    rfl
  | succ count ih =>
    obtain ⟨first, others, hfirst, hothers, rfl⟩ := ofItems?_succ_eq_some.1 h
    rw [blocks_append, hitem (Nat.succ_pos count) hfirst,
      ih (fun _ ↦ hitem (Nat.succ_pos count)) hothers]
    rfl

mutual

/-- An element with fewer bytes than an address leads nowhere. -/
theorem ElementType.blocks_eq_nil_of_narrow (type : ElementType) (hlaid : type.Laid)
    (hnarrow : type.width < addressSize) {bytes : Bytes} {contents : Contents}
    (h : type.contents? heap bytes = some contents) : contents.blocks = [] := by
  match type, hlaid with
  | .number _, _ | .fixedString _, _ | .reference _, _ | .enum _ _, _ =>
    obtain rfl := Option.some.inj h
    rfl
  | .string, _ => exact absurd hnarrow (by decide)
  | .vlen element, _ => exact absurd hnarrow (by simp [entrySize, addressSize])
  | .array element length, hlaid =>
    obtain ⟨items, hitems, rfl⟩ := ElementType.contents?_array_eq_some.1 h
    rw [hlaid.width_array] at hnarrow
    change items.blocks = []
    refine Contents.blocks_eq_nil_of_ofItems? (fun hpos _ _ hitem ↦ ?_) hitems
    have hle := Nat.le_mul_of_pos_right element.width hpos
    exact ElementType.blocks_eq_nil_of_narrow element hlaid.1 (by omega) hitem
  | .compound members size, hlaid =>
    obtain ⟨items, hitems, rfl⟩ := ElementType.contents?_compound_eq_some.1 h
    change items.blocks = []
    exact Members.blocks_eq_nil_of_narrow members hlaid.inside hnarrow hitems

theorem Members.blocks_eq_nil_of_narrow (members : Members) {width : Nat}
    (hinside : members.Inside width) (hnarrow : width < addressSize) {bytes : Bytes}
    {contents : Contents} (h : members.contents? heap bytes = some contents) :
    contents.blocks = [] := by
  match members, hinside with
  | .nil, _ =>
    obtain rfl := Option.some.inj h
    rfl
  | .cons name offset type rest, hinside =>
    obtain ⟨first, others, hfirst, hothers, rfl⟩ := Members.contents?_cons_eq_some.1 h
    have hstop := hinside.stop_le _ List.mem_cons_self
    dsimp only at hstop
    rw [Contents.blocks_append,
      ElementType.blocks_eq_nil_of_narrow type hinside.laid.2.1 (by omega) hfirst,
      Members.blocks_eq_nil_of_narrow rest hinside.tail hnarrow hothers]
    rfl

end

end Counts

/-- When nothing is found in some parts, nothing is found in fewer. -/
theorem FirstPayload.ofParts_of_le {part : Nat → FirstPayload} {first fewer count : Nat}
    (hle : fewer ≤ count) (h : ofParts part first count = .absent) :
    ofParts part first fewer = .absent := by
  induction count generalizing first fewer with
  | zero =>
    obtain rfl := Nat.le_zero.1 hle
    rfl
  | succ count ih =>
    cases fewer with
    | zero => rfl
    | succ fewer =>
      obtain ⟨hfirst, hrest⟩ := orElse_eq_absent.1 h
      exact orElse_eq_absent.2 ⟨hfirst, ih (Nat.le_of_succ_le_succ hle) hrest⟩

/-! ### Past the end -/

/-- No word lies past the end of a buffer. -/
theorem Buffer.wordBytes_beyond {buffer : Bytes} {position : Int} {width : Nat} (hwidth : 0 < width)
    (h : (buffer.length : Int) ≤ position) :
    ∃ fault, wordBytes buffer position width = .error fault := by
  obtain ⟨n, rfl⟩ := Int.eq_ofNat_of_zero_le (Int.le_trans (Int.natCast_nonneg _) h)
  have hnone : Bytes.wordAt? buffer n width = none := by
    rw [Bytes.wordAt?_natCast, if_neg (by omega)]
  rw [wordBytes, hnone]
  dsimp only
  split <;> exact ⟨_, rfl⟩

mutual

/-- Freeing an element past the end of a buffer does nothing to the heap. -/
theorem ElementType.freeAt_beyond (type : ElementType) (h : type.Laid) {buffer : Bytes}
    {position : Int} (hbeyond : (buffer.length : Int) ≤ position) :
    Preserves Eq (type.freeAt position buffer) := by
  match type, h with
  | .number _, _ | .fixedString _, _ | .reference _, _ | .enum _ _, _ =>
    exact Action.preserves_pure (fun _ ↦ rfl) _
  | .string, _ =>
    obtain ⟨fault, hfault⟩ := Buffer.wordBytes_beyond (by decide : 0 < addressSize) hbeyond
    intro heap
    rw [ElementType.freeAt, freeString, Buffer.loadWord, hfault]
    rfl
  | .vlen element, _ =>
    obtain ⟨fault, hfault⟩ := Buffer.wordBytes_beyond (by decide : 0 < 16) hbeyond
    intro heap
    rw [ElementType.freeAt, freeSequence, Buffer.loadEntry, hfault]
    rfl
  | .array element length, ⟨helement, _⟩ =>
    rw [ElementType.freeAt]
    split
    · refine Preserves.iterate (fun _ ↦ rfl) (fun _ _ _ ↦ Eq.trans) (fun k _ ↦ ?_) _ _ _
      have hsize := Int.mul_nonneg (Int.natCast_nonneg k) helement.size_nonneg
      exact ElementType.freeAt_beyond element helement (by omega)
    · exact Action.preserves_pure (fun _ ↦ rfl) _
  | .compound members size, ⟨hmembers, _⟩ => exact Members.freeAt_beyond members hmembers hbeyond

theorem Members.freeAt_beyond (members : Members) (h : members.Laid) {buffer : Bytes}
    {position : Int} (hbeyond : (buffer.length : Int) ≤ position) :
    Preserves Eq (members.freeAt position buffer) := by
  match members, h with
  | .nil, _ => exact Action.preserves_pure (fun _ ↦ rfl) _
  | .cons name offset type rest, ⟨hoffset, htype, hrest⟩ =>
    have hlater := Members.freeAt_beyond rest hrest hbeyond
    rw [Members.freeAt]
    split
    · have hfirst := ElementType.freeAt_beyond type htype
        (by omega : (buffer.length : Int) ≤ position + offset)
      exact Preserves.bind (r := Eq) (fun _ _ _ ↦ Eq.trans) hfirst fun _ ↦ hlater
    · exact hlater

end

namespace ElementType

variable {type : ElementType} {heap : Heap} {count : Nat} {buffer : Bytes} {contents : Contents}

/-- Freeing more elements than a buffer holds leaves the heap as freeing those it holds does. -/
theorem freeEach_min (h : type.Laid) (hlength : buffer.length ≤ count * type.width) (number : Nat)
    (heap : Heap) :
    ((type.freeEach number buffer).run heap).2 =
      ((type.freeEach (min number count) buffer).run heap).2 := by
  rcases Nat.le_total number count with hle | hle
  · rw [Nat.min_eq_left hle]
  obtain ⟨more, rfl⟩ := Nat.exists_eq_add_of_le hle
  rw [Nat.min_eq_right hle]
  by_cases hvariable : type.isVariable = true
  · rw [freeEach, freeEach, if_pos hvariable, if_pos hvariable, Action.run_iterate_add,
      Action.run_bind]
    rcases (Action.iterate (fun (i : Nat) (_ : Unit) ↦ type.freeAt (i * type.size) buffer) 0 count
      ()).run heap with ⟨fault | ⟨⟩, after⟩
    · rfl
    · have hlater : Preserves Eq (Action.iterate
          (fun (i : Nat) (_ : Unit) ↦ type.freeAt (i * type.size) buffer) (0 + count) more ()) := by
        refine Preserves.iterate_from (fun _ ↦ rfl) (fun _ _ _ ↦ Eq.trans) (fun k hk _ ↦ ?_) _ _
        have hle : count * type.width ≤ k * type.width := Nat.mul_le_mul_right _ (by omega)
        refine type.freeAt_beyond h ?_
        rw [h.mul_size]
        omega
      exact (hlater after).symm
  · rw [freeEach, freeEach, if_neg hvariable, if_neg hvariable]

/-- Assumes: elements that fill a buffer, and the first of them up to some number, whose blocks are
held. Freeing as many elements as this number says frees these blocks and no others. -/
theorem freeEach_some {head : Contents} (h : type.Laid) (hsound : heap.Sound)
    (hlength : buffer.length = count * type.width) {number : Nat}
    (hhead : Contents.ofItems? (type.contents? heap) type.width (min number count) buffer =
      some head)
    (hholds : heap.Holds head.blocks) :
    ((type.freeEach number buffer).run heap).2 = heap.release head.blocks := by
  have hfits : min number count * type.width ≤ buffer.length := by
    rw [hlength]
    exact Nat.mul_le_mul_right _ (Nat.min_le_right _ _)
  rw [freeEach_min h (Nat.le_of_eq hlength), freeEach_eq h hsound hfits hhead hholds]

/-- Without payloads in the elements that fill a buffer, freeing any number of them does nothing to
the heap. -/
theorem freeEach_of_absent_any {readable : Heap.Readable} (h : type.Laid)
    (hlength : buffer.length ≤ count * type.width)
    (habsent : type.firstPayloadEach readable count buffer = .absent) (number : Nat) (heap : Heap) :
    ((type.freeEach number buffer).run heap).2 = heap := by
  have hfewer : type.firstPayloadEach readable (min number count) buffer = .absent := by
    unfold firstPayloadEach at habsent ⊢
    split
    · next hvariable =>
      rw [if_pos hvariable] at habsent
      exact FirstPayload.ofParts_of_le (Nat.min_le_right number count) habsent
    · rfl
  rw [freeEach_min h hlength, freeEach_of_absent hfewer]
  rfl

end ElementType

end Stowage
