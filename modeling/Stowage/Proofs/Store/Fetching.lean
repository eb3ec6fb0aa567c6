import Stowage.Proofs.Payloads.Partial
import Stowage.Proofs.Record.Layout
import Stowage.Proofs.Registry.Classification
import Stowage.Proofs.Store.Intact
import Stowage.Proofs.Store.Stranding

/-!
# What readers leave live

A reader of values takes fresh copies of all payloads of a dataset. It looks at them and then, even
when it could make nothing of them, releases as many elements of its buffer as it was asked to read.
Whether the buffer fits is decided by its size alone, and the reader sizes it by the width that its
own elements have (`Reader.plan`). So when the elements of the dataset are narrower, there are more
of them than the reader releases, and the copies of the others stay live although nothing leads to
them; and a reader of records without strings releases nothing at all (`read_keeps_rest`).

When the reader covers the elements, the live blocks are those of before (`Reader.Covers`): readers
of strings and of arrays always do, a reader of sequences does unless the elements are narrower
than the entry of a sequence, and a reader of records does when its layout holds a string and is
not wider than the elements.
-/

set_option autoImplicit false

namespace Stowage

namespace Heap

variable {before copied : Heap} {freed kept : List Nat}

/-- When some of the added blocks are freed again, the others have been gained. -/
theorem Grown.gained_release (h : before.Grown copied (freed ++ kept)) (hsound : before.Sound) :
    before.Gained (copied.release freed) kept where
  mem_blocks := by
    intro block hblock
    refine List.mem_map.2 ⟨block, h.mem_of_mem hblock, Block.releaseIf_of_not_mem fun hmem ↦ ?_⟩
    have hlt := hsound.stacked.start_lt hblock
    have hle := h.top_le_of_mem (List.mem_append_left kept hmem)
    omega
  top_le_of_mem := fun _ ha ↦ h.top_le_of_mem (List.mem_append_right freed ha)
  isLive_iff := by
    intro address
    have hapart := (List.nodup_append.1 h.changed.nodup).2.2
    rw [isLive_release, h.isLive_iff, List.mem_append]
    constructor
    · rintro ⟨hbefore | hfreed | hkept, hnot⟩
      · exact .inl hbefore
      · exact absurd hfreed hnot
      · exact .inr hkept
    · rintro (hbefore | hkept)
      · refine ⟨.inl hbefore, fun hmem ↦ ?_⟩
        obtain ⟨block, hblock, _, rfl⟩ := (isLive_natCast address).1 hbefore
        have hlt := hsound.stacked.start_lt hblock
        have hle := h.top_le_of_mem (List.mem_append_left kept hmem)
        omega
      · exact ⟨.inr (.inr hkept), fun hmem ↦ hapart address hmem address hkept rfl⟩

end Heap

/-! ### Copies of which some are released -/

section Released

variable {type : ElementType} {heap after : Heap} {count released : Nat} {data : Bytes}
  {contents rest : Contents}

/-- Assumes: elements that can be followed are copied, and the copies of the first ones are
released. As many blocks stay behind as the other elements lead to. -/
theorem ElementType.exists_gained_of_release (hlaid : type.Laid)
    (hopen : heap.closed = false → heap.Sound) (hlength : data.length = count * type.width)
    (hcontents : type.contentsEach? heap count data = some contents)
    (hrun : ((type.copyEach count data >>= type.freeEach released).run heap).2 = after)
    (hlimit : after.top ≤ Heap.addressLimit) :
    ∃ rest kept, type.contentsEach? heap (count - released) (data.drop (released * type.width)) =
        some rest ∧ heap.Gained after kept ∧ kept.length = rest.blocks.length ∧
      (heap.SameLive after ↔ rest.blocks = []) := by
  obtain ⟨head, rest, hhead, hrest, rfl⟩ := Contents.exists_ofItems?_rest hcontents released
  rw [Action.run_bind] at hrun
  rcases hclosed : heap.closed with _ | _
  · have hsound := hopen hclosed
    obtain ⟨stored, copied, added, hcopy, hgrown, hstored, hcopied⟩ :=
      copyEach_of_contents hlaid hsound hlength hcontents
    rw [hcopy] at hrun
    dsimp only at hrun
    have htop : copied.top ≤ after.top := by
      obtain ⟨_, _, hchanged⟩ := type.evolves_freeEach released stored copied hgrown.sound
      exact hrun ▸ hchanged.top_le
    obtain ⟨copy, hcopyContents, rfl, hviews⟩ := hcopied (Nat.le_trans htop hlimit)
    obtain ⟨first, others, hfirst, hothers, rfl⟩ :=
      Contents.exists_ofItems?_rest hcopyContents released
    -- the copies that are released look like the elements they were made of
    have hsplit : first.views = head.views ∧ others.views = rest.views := by
      refine List.append_inj ?_ ?_
      · rw [← Contents.views_append, ← Contents.views_append, hviews]
      · rw [ElementType.length_views hfirst, ElementType.length_views hhead]
    have hsame : others.blocks.length = rest.blocks.length :=
      Contents.length_blocks_of_ofItems? type.length_blocks_of_views hothers hrest hsplit.2
    rw [Contents.blocks_append] at hgrown
    rw [freeEach_some hlaid hgrown.sound (hstored.trans hlength) hfirst
      hgrown.changed.holds_added.left] at hrun
    have hgained : heap.Gained after others.blocks := hrun ▸ hgrown.gained_release hsound
    refine ⟨rest, others.blocks, hrest, hgained, hsame, (hgained.sameLive_iff hsound).trans ?_⟩
    rw [← List.length_eq_zero_iff, hsame, List.length_eq_zero_iff]
  · obtain ⟨habsent, hnone⟩ := null_of_closed hlaid hclosed hlength hcontents
    have hcopy := opens_copyEach hopen type count data
    rw [habsent] at hcopy
    rw [show (type.copyEach count data).run heap = _ from hcopy] at hrun
    have hsame := freeEach_of_absent_any hlaid (Nat.le_of_eq hlength) habsent released heap
    obtain rfl : heap = after := hsame.symm.trans hrun
    have hrestNone : rest.blocks = [] := (List.append_eq_nil_iff.1 hnone).2
    exact ⟨rest, [], hrest, .refl heap, by rw [hrestNone], fun _ ↦ hrestNone, fun _ _ ↦ rfl⟩

/-- No block is left when the elements hold no addresses, have no room for one, or are all
released. -/
theorem ElementType.blocks_eq_nil_of_rest (hlaid : type.Laid)
    (hrest : type.contentsEach? heap (count - released) data = some rest)
    (h : type.isVariable = false ∨ type.width < addressSize ∨ count ≤ released) :
    rest.blocks = [] := by
  rcases h with hvariable | hnarrow | hall
  · exact blocks_eq_nil_of_not_isVariable hvariable hrest
  · exact Contents.blocks_eq_nil_of_ofItems?
      (fun _ _ _ hitem ↦ type.blocks_eq_nil_of_narrow hlaid hnarrow hitem) hrest
  · rw [Nat.sub_eq_zero_of_le hall] at hrest
    obtain rfl := Option.some.inj hrest
    rfl

end Released

namespace Store

/-! ### Readers -/

/-- What a dataset is read as. -/
inductive Reader where
  /-- Sequences. -/
  | sequences
  /-- Arrays. -/
  | arrays
  /-- Strings. -/
  | strings
  /-- Records of a layout, with or without a heap for their strings. -/
  | records (layout : RecordLayout) (attached : Bool)

/-- Reads values from a dataset. -/
def Reader.read (reader : Reader) (handle typeId count : Int) : Action Store (List Value) :=
  match reader with
  | .sequences => readSequences handle typeId count
  | .arrays => readArrays handle typeId count
  | .strings => readStrings handle typeId count
  | .records layout attached => readRecords layout attached handle typeId count

/-- The bytes that a reader takes each element for, and whether it releases elements. -/
def Reader.plan (reader : Reader) (catalogue : Catalogue) (typeId : Int) :
    Except Fault (Int × Bool) :=
  match reader with
  | .sequences => .ok (entrySize, true)
  | .arrays => do
    let (element, length) ← catalogue.arrayElement typeId
    .ok ((ElementType.array element length).size, (ElementType.array element length).isVariable)
  | .strings => .ok (addressSize, true)
  | .records layout attached => do
    layout.check
    if attached then .ok (layout.size, layout.hasVariableFields) else .error (.conversion .detached)

/-- Elements of the type that hold addresses are at least as wide as the reader takes them for, and
the reader releases them. -/
def Reader.Covers (reader : Reader) (type : ElementType) : Prop :=
  match reader with
  | .sequences => entrySize ≤ type.size
  | .arrays => type.Classifiable
  | .strings => True
  | .records layout _ => layout.hasVariableFields = true ∧ layout.size ≤ type.size

variable {store : Store} {handle typeId : Int} {dataset : Dataset} {type : ElementType}

/-- The dataset that elements of a width are read from, its type, and the number of elements that
are released afterwards. -/
def taken (store : Store) (width : Int) (reclaims : Bool) (handle typeId count : Int) :
    Except Fault (Dataset × ElementType × Nat) := do
  let zeros ← Buffer.zeroed (count * width)
  let (dataset, type) ← store.fitting handle typeId zeros.length
  .ok (dataset, type, if reclaims then count.toNat else 0)

/-- What is left when a dataset has been copied and the first copies have been released. -/
def leaving (store : Store) (taken : Except Fault (Dataset × ElementType × Nat)) : Store :=
  match taken with
  | .error _ => store
  | .ok (dataset, type, released) => ((onHeap (type.copyEach dataset.count dataset.data >>=
      type.freeEach released)).run store).2

/-- Fetching elements, looking at them, and reclaiming them. -/
theorem run_fetch_ensuring_snd {α : Type} (look : Bytes → Store → Except Fault α) (reclaims : Bool)
    (handle typeId count width : Int) (store : Store) :
    ((fetch handle typeId (count * width) >>= fun buffer ↦ Action.ensuring
        (.reading (look buffer)) (reclaimIf reclaims typeId count buffer)).run store).2 =
      store.leaving (store.taken width reclaims handle typeId count) := by
  rw [taken, Action.run_bind, fetch]
  rcases hzeroed : Buffer.zeroed (count * width) with fault | zeros
  · rw [Action.run_ofExcept_bind_error rfl]
    rfl
  rw [Action.run_ofExcept_bind_ok rfl, Outcome.ok_bind]
  rcases hfitting : store.fitting handle typeId zeros.length with fault | ⟨dataset, type⟩
  · rw [read_unfit hfitting]
    rfl
  rw [read_eq hfitting, Outcome.ok_bind, leaving, onHeap, Action.run_within, Action.run_bind]
  rcases (type.copyEach dataset.count dataset.data).run store.heap with ⟨fault | buffer, copied⟩
  · rfl
  · have htype : { store with heap := copied }.registry.typeOf typeId = .ok type :=
      (fitting_eq_ok.1 hfitting).2.1
    rw [Action.run_ensuring_snd]
    exact congrArg Prod.snd (run_reclaimIf htype reclaims count buffer)

/-- What a reader takes from a dataset. -/
def Reader.takes (reader : Reader) (store : Store) (handle typeId count : Int) :
    Except Fault (Dataset × ElementType × Nat) := do
  let (width, reclaims) ← reader.plan store.catalogue typeId
  store.taken width reclaims handle typeId count

/-- A reader leaves what it has not released, whether it succeeds or is refused. -/
theorem Reader.run_read_snd (reader : Reader) (handle typeId count : Int) (store : Store) :
    ((reader.read handle typeId count).run store).2 =
      store.leaving (reader.takes store handle typeId count) := by
  match reader with
  | .sequences =>
    rw [Reader.read, readSequences, Action.run_bind_bind, Action.run_bind_ofExcept]
    exact run_fetch_ensuring_snd _ true handle typeId count entrySize store
  | .arrays =>
    rw [Reader.read, readArrays, Action.run_bind, arrayType, Action.run_reading, Reader.takes,
      Reader.plan]
    rcases store.catalogue.arrayElement typeId with fault | ⟨element, length⟩
    · rfl
    · rw [Outcome.ok_bind, Outcome.ok_bind]
      dsimp only
      rw [Action.run_bind_bind, Action.run_bind_ofExcept]
      exact run_fetch_ensuring_snd _ _ handle typeId count _ store
  | .strings => exact run_fetch_ensuring_snd _ true handle typeId count addressSize store
  | .records layout attached =>
    rw [Reader.read, readRecords, Action.run_bind, Action.run_ofExcept, Reader.takes, Reader.plan]
    rcases layout.check with fault | ⟨⟩
    · rfl
    cases attached with
    | false => rfl
    | true => exact run_fetch_ensuring_snd _ _ handle typeId count layout.size store

/-! ### What is left -/

/-- A reader has gone, and as many blocks as some elements lead to are left behind. Nothing else has
changed. -/
structure KeepsCopies (before after : Store) (rest : Contents) : Prop where
  /-- Types and datasets stay. -/
  eq_heap : after = { before with heap := after.heap }
  /-- Copies are left behind, one for each block that the elements lead to. -/
  gained : ∃ kept, before.heap.Gained after.heap kept ∧ kept.length = rest.blocks.length
  /-- The live blocks are the same exactly when the elements lead nowhere. -/
  sameLive_iff : before.heap.SameLive after.heap ↔ rest.blocks = []

theorem taken_eq_ok {width count : Int} {reclaims : Bool} {released : Nat} :
    store.taken width reclaims handle typeId count = .ok (dataset, type, released) ↔
      0 ≤ count * width ∧ count * width < Buffer.indexLimit ∧
        store.fitting handle typeId (count * width).toNat = .ok (dataset, type) ∧
          released = if reclaims then count.toNat else 0 := by
  simp only [taken, Outcome.bind_eq_ok, Buffer.zeroed_eq_ok]
  constructor
  · rintro ⟨_, ⟨hnonneg, hlimit, rfl⟩, ⟨found, held⟩, hfitting, h⟩
    obtain ⟨rfl, hothers⟩ := Prod.mk.inj (Except.ok.inj h)
    obtain ⟨rfl, rfl⟩ := Prod.mk.inj hothers
    rw [Bytes.length_zeros] at hfitting
    exact ⟨hnonneg, hlimit, hfitting, rfl⟩
  · rintro ⟨hnonneg, hlimit, hfitting, rfl⟩
    refine ⟨_, ⟨hnonneg, hlimit, rfl⟩, (dataset, type), ?_, rfl⟩
    rw [Bytes.length_zeros]
    exact hfitting

/-- A reader that covers the elements of a type releases elements of at most their width. -/
theorem Reader.Covers.plan {reader : Reader} {width : Int} {reclaims : Bool}
    (h : reader.Covers type) (hlaid : type.Laid) (hvariable : type.isVariable = true)
    (hwide : addressSize ≤ type.width)
    (htype : store.registry.typeOf typeId = .ok type)
    (hplan : reader.plan store.catalogue typeId = .ok (width, reclaims)) :
    reclaims = true ∧ 0 ≤ width ∧ width ≤ type.width := by
  have hsize := hlaid.size_eq_width
  match reader with
  | .sequences =>
    obtain ⟨rfl, rfl⟩ := Prod.mk.inj (Except.ok.inj hplan)
    exact ⟨rfl, Int.natCast_nonneg _, hsize ▸ h⟩
  | .arrays =>
    obtain ⟨⟨element, length⟩, hfound, hplan⟩ := Outcome.bind_eq_ok.1 hplan
    obtain ⟨rfl, rfl⟩ := Prod.mk.inj (Except.ok.inj hplan)
    obtain ⟨found, hclassified, hfound⟩ := Outcome.bind_eq_ok.1 hfound
    obtain rfl := Registry.eq_of_classifyWithin htype h _ hclassified
    have harray : found = .array element length := by
      split at hfound
      · obtain ⟨rfl, rfl⟩ := Prod.mk.inj (Except.ok.inj hfound)
        rfl
      · exact absurd hfound (by simp)
    subst harray
    exact ⟨hvariable, hlaid.size_nonneg, Int.le_of_eq hsize⟩
  | .strings =>
    obtain ⟨rfl, rfl⟩ := Prod.mk.inj (Except.ok.inj hplan)
    exact ⟨rfl, Int.natCast_nonneg _, Int.ofNat_le.2 hwide⟩
  | .records layout attached =>
    obtain ⟨⟨⟩, hcheck, hplan⟩ := Outcome.bind_eq_ok.1 hplan
    cases attached with
    | false => exact absurd hplan (by simp)
    | true =>
      obtain ⟨rfl, rfl⟩ := Prod.mk.inj (Except.ok.inj hplan)
      have hpos := RecordLayout.size_pos_of_hasVariableFields hcheck h.1
      exact ⟨h.1, Int.le_of_lt hpos, hsize ▸ h.2⟩

/-- Elements that are covered are all released. -/
theorem Reader.Covers.le_released {reader : Reader} {count : Int} {released : Nat}
    (h : reader.Covers type) (hlaid : type.Laid) (hvariable : type.isVariable = true)
    (hwide : addressSize ≤ type.width) (hfits : dataset.Fits type)
    (htakes : reader.takes store handle typeId count = .ok (dataset, type, released)) :
    dataset.count ≤ released := by
  obtain ⟨⟨width, reclaims⟩, hplan, htaken⟩ := Outcome.bind_eq_ok.1 htakes
  obtain ⟨hnonneg, _, hfitting, rfl⟩ := taken_eq_ok.1 htaken
  obtain ⟨_, htype, _, hlength⟩ := fitting_eq_ok.1 hfitting
  obtain ⟨rfl, hwidth, hle⟩ := h.plan hlaid hvariable hwide htype hplan
  rw [if_pos rfl]
  have hwhole : ((dataset.count * type.width : Nat) : Int) ≤
      ((count.toNat * type.width : Nat) : Int) := by
    calc ((dataset.count * type.width : Nat) : Int) = count * width := by
          rw [← hfits.length_eq, ← hlength, Int.toNat_of_nonneg hnonneg]
      _ ≤ count.toNat * width := Int.mul_le_mul_of_nonneg_right (Int.self_le_toNat count) hwidth
      _ ≤ count.toNat * type.width := Int.mul_le_mul_of_nonneg_left hle (Int.natCast_nonneg _)
      _ = ((count.toNat * type.width : Nat) : Int) := (Int.natCast_mul _ _).symm
  have haddress : 0 < addressSize := by decide
  exact Nat.le_of_mul_le_mul_right (Int.ofNat_le.1 hwhole) (Nat.lt_of_lt_of_le haddress hwide)

/-- Assumes: a library whose datasets own what they lead to and whose heap is sound unless it was
closed, any reader, any numbers, and a heap whose addresses fit the eight bytes they are stored in.
When the reader is refused before it takes copies, nothing has happened. Otherwise exactly the
copies of the elements behind the released ones are left behind, one for each block that these lead
to. None is left behind when the elements of the dataset hold no addresses or the reader covers
them. -/
theorem read_keeps_rest (howning : store.Owning)
    (hopen : store.heap.closed = false → store.heap.Sound) (reader : Reader)
    (handle typeId count : Int) {after : Store}
    (hafter : ((reader.read handle typeId count).run store).2 = after)
    (hlimit : after.heap.top ≤ Heap.addressLimit) :
    (∃ fault, reader.takes store handle typeId count = .error fault ∧ after = store) ∨
      ∃ dataset type released rest,
        reader.takes store handle typeId count = .ok (dataset, type, released) ∧
          type.contentsEach? store.heap (dataset.count - released)
            (dataset.data.drop (released * type.width)) = some rest ∧
          store.KeepsCopies after rest ∧
          (type.isVariable = false ∨ reader.Covers type → store.heap.SameLive after.heap) := by
  rw [Reader.run_read_snd] at hafter
  rcases htakes : reader.takes store handle typeId count with fault | ⟨dataset, type, released⟩
  · rw [htakes] at hafter
    exact .inl ⟨fault, rfl, hafter.symm⟩
  · rw [htakes] at hafter
    subst hafter
    obtain ⟨⟨width, reclaims⟩, hplan, htaken⟩ := Outcome.bind_eq_ok.1 htakes
    obtain ⟨_, _, hfitting, _⟩ := taken_eq_ok.1 htaken
    obtain ⟨hlaid, hfits, contents, hcontents, _⟩ := howning.fits hfitting
    obtain ⟨rest, kept, hrest, hgained, hlength, hsame⟩ :=
      ElementType.exists_gained_of_release hlaid hopen hfits.length_eq hcontents rfl hlimit
    refine .inr ⟨dataset, type, released, rest, rfl, hrest,
      ⟨rfl, ⟨kept, hgained, hlength⟩, hsame⟩, fun hcovers ↦ hsame.2 ?_⟩
    refine ElementType.blocks_eq_nil_of_rest hlaid hrest ?_
    by_cases hvariable : type.isVariable = true
    · refine .inr ((Nat.lt_or_ge type.width addressSize).imp id fun hwide ↦ ?_)
      have hcovers := hcovers.resolve_left (by rw [hvariable]; exact Bool.true_eq_false_eq_False)
      exact hcovers.le_released hlaid hvariable hwide hfits htakes
    · exact .inl (Bool.eq_false_iff.2 hvariable)

/-- Reading two strings as one sequence is refused, and the copy of the second string is left
behind. Reading them as strings leaves nothing. -/
theorem read_keeps_rest_lettered :
    (∃ rest, ElementType.string.contentsEach? lettered.heap 1 (Bytes.ofNat 8 32) = some rest ∧
      lettered.KeepsCopies ((Reader.sequences.read 1 1 1).run lettered).2 rest) ∧
    lettered.heap.SameLive ((Reader.strings.read 1 1 2).run lettered).2.heap := by
  have hopen : lettered.heap.closed = false → lettered.heap.Sound :=
    fun _ ↦ reachable_lettered.sound.heap
  have hsequence : Reader.sequences.takes lettered 1 1 1 =
      .ok (⟨1, 2, Bytes.ofNat 8 24 ++ Bytes.ofNat 8 32⟩, .string, 1) := by decide +kernel
  have hstrings : Reader.strings.takes lettered 1 1 2 =
      .ok (⟨1, 2, Bytes.ofNat 8 24 ++ Bytes.ofNat 8 32⟩, .string, 2) := by decide +kernel
  constructor
  · rcases read_keeps_rest lettered_owning hopen .sequences 1 1 1 rfl (by decide +kernel) with
      ⟨fault, hrefused, _⟩ | ⟨_, _, _, rest, htakes, hrest, hkeeps, _⟩
    · exact absurd (hsequence.symm.trans hrefused) (by simp)
    · obtain ⟨rfl, hothers⟩ := Prod.mk.inj (Except.ok.inj (hsequence.symm.trans htakes))
      obtain ⟨rfl, rfl⟩ := Prod.mk.inj hothers
      exact ⟨rest, hrest, hkeeps⟩
  · rcases read_keeps_rest lettered_owning hopen .strings 1 1 2 rfl (by decide +kernel) with
      ⟨fault, hrefused, _⟩ | ⟨_, _, _, _, _, _, _, hsame⟩
    · exact absurd (hstrings.symm.trans hrefused) (by simp)
    · exact hsame (.inr trivial)

/-- A reader of records that are one number each. -/
def Reader.numbers : Reader := .records ⟨[⟨"n", 0, .number .int64⟩], 8⟩ true

/-- A refused read of sequences and a granted read of numbers. After each of them a block is live
that was not live before. -/
theorem read_changes_live :
    lettered.Owning ∧
    (((Reader.sequences.read 1 1 1).run lettered).1.map (·.length) =
        .error (.type (.notSequence "string")) ∧
      ¬ lettered.heap.SameLive ((Reader.sequences.read 1 1 1).run lettered).2.heap) ∧
    ((Reader.numbers.read 1 1 2).run lettered).1.map (·.length) = .ok 2 ∧
      ¬ lettered.heap.SameLive ((Reader.numbers.read 1 1 2).run lettered).2.heap := by
  have hsequence : ((Reader.sequences.read 1 1 1).run lettered).2.heap.isLive 48 ≠
      lettered.heap.isLive 48 := by decide +kernel
  have hnumbers : ((Reader.numbers.read 1 1 2).run lettered).2.heap.isLive 48 ≠
      lettered.heap.isLive 48 := by decide +kernel
  exact ⟨lettered_owning, ⟨by decide +kernel, fun h ↦ hsequence (h 48)⟩, by decide +kernel,
    fun h ↦ hnumbers (h 48)⟩

end Store

end Stowage
