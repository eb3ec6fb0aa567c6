import Stowage.Proofs.Packing.Sequences
import Stowage.Proofs.Packing.Tracking
import Stowage.Proofs.Sequence.Reading
import Stowage.Proofs.Uniform

/-!
# Packing with less memory

Of the memory, packing needs only that the addresses of its blocks fit a word. So what can be packed
on one heap can be packed on every heap that ends no later, and with parts left out
(`Ledger.Lowers`): a missing item of a sequence or an array takes no block and is laid out in as
many bytes (`Sequence.lowers_encode_blanks`). References and records are not among the items that
can be missing.
-/

set_option autoImplicit false

namespace Stowage

open Ledger (Accounts)

/-! ### Heaps that end no later -/

/-- Blocks that fit after blocks were added fitted before. -/
theorem Heap.Changed.blocksFit {before after : Heap} {added : List Nat}
    (h : before.Changed after [] added) (hfits : after.BlocksFit) : before.BlocksFit := by
  intro block hblock
  obtain ⟨fresh, hblocks, _⟩ := h.blocks_eq
  have hmem := List.mem_map_of_mem (f := Block.releaseIf []) hblock
  rw [Block.releaseIf_nil] at hmem
  exact hfits block (hblocks ▸ List.mem_append_right _ hmem)

namespace Ledger

/-- The first heap ends no later than the second, and its blocks fit when those of the second do. -/
structure Below (low high : Ledger) : Prop where
  /-- The first heap is sound. -/
  sound : low.heap.Sound
  /-- So is the second. -/
  sound' : high.heap.Sound
  /-- The top of the first heap is no higher. -/
  top_le : low.heap.top ≤ high.heap.top
  /-- The sizes of blocks stay within four bytes. -/
  blocksFit : high.heap.BlocksFit → low.heap.BlocksFit

theorem Below.refl {ledger : Ledger} (h : ledger.heap.Sound) : ledger.Below ledger :=
  ⟨h, h, Nat.le_refl _, id⟩

/-- Blocks that are added above do not matter. -/
theorem Below.of_changed {low high after : Ledger} {added : List Nat} (h : low.Below high)
    (hchanged : high.heap.Changed after.heap [] added) : low.Below after where
  sound := h.sound
  sound' := hchanged.sound
  top_le := Nat.le_trans h.top_le hchanged.top_le
  blocksFit := fun hfits ↦ h.blocksFit (hchanged.blocksFit hfits)

variable {α β γ δ : Type}

/-- Wherever the first action succeeds, the second one succeeds on every ledger below. It ends below
again, and the results are related. -/
def Lowers (related : α → β → Prop) (x : Action Ledger α) (y : Action Ledger β) : Prop :=
  ∀ high low : Ledger, low.Below high → ∀ a high', x.run high = (.ok a, high') →
    ∃ b low', y.run low = (.ok b, low') ∧ low'.Below high' ∧ related a b

section Lowers

variable {related : α → β → Prop} {kept : γ → δ → Prop}

theorem lowers_ofExcept {outcome : Except Fault α} {other : Except Fault β}
    (h : ∀ a, outcome = .ok a → ∃ b, other = .ok b ∧ related a b) :
    Lowers related (Action.ofExcept outcome) (Action.ofExcept other) := by
  intro high low hbelow a high' hrun
  obtain ⟨rfl, houtcome⟩ := Action.run_ofExcept_eq_ok.1 hrun
  obtain ⟨b, hother, hrelated⟩ := h a houtcome
  exact ⟨b, low, Action.run_ofExcept_eq_ok.2 ⟨rfl, hother⟩, hbelow, hrelated⟩

theorem lowers_pure {a : α} {b : β} (h : related a b) : Lowers related (pure a) (pure b) :=
  lowers_ofExcept fun _ hfound ↦ ⟨b, rfl, Except.ok.inj hfound ▸ h⟩

/-- A refused action succeeds nowhere. -/
theorem lowers_refuse (fault : Fault) (y : Action Ledger β) :
    Lowers related (Action.refuse fault) y := by
  intro high low _ a high' hrun
  exact absurd (Prod.mk.inj hrun).1 (by simp)

/-- Nothing has to be packed for a result that is there. -/
theorem lowers_pure_right {x : Action Ledger α} (hx : Accounts x) {b : β}
    (h : ∀ a, related a b) : Lowers related x (pure b) := by
  intro high low hbelow a high' hrun
  obtain ⟨added, hchanged, _⟩ := hx.tracks high hbelow.sound'
  rw [hrun] at hchanged
  exact ⟨b, low, rfl, hbelow.of_changed hchanged, h a⟩

theorem Lowers.bind {x : Action Ledger α} {y : Action Ledger β} (h : Lowers related x y)
    {f : α → Action Ledger γ} {g : β → Action Ledger δ}
    (hrest : ∀ a b, related a b → Lowers kept (f a) (g b)) : Lowers kept (x >>= f) (y >>= g) := by
  intro high low hbelow c high' hrun
  obtain ⟨a, middle, hfirst, hsecond⟩ := Action.run_bind_eq_ok.1 hrun
  obtain ⟨b, lower, hother, hbetween, hrelated⟩ := h high low hbelow a middle hfirst
  obtain ⟨d, low', hlast, hend, hkept⟩ := hrest a b hrelated middle lower hbetween c high' hsecond
  exact ⟨d, low', Action.run_bind_eq_ok.2 ⟨b, lower, hother, hlast⟩, hend, hkept⟩

/-- The same outcome comes first. -/
theorem lowers_ofExcept_bind {outcome : Except Fault α} {f : α → Action Ledger γ}
    {g : α → Action Ledger δ} (hrest : ∀ a, Lowers kept (f a) (g a)) :
    Lowers kept (Action.ofExcept outcome >>= f) (Action.ofExcept outcome >>= g) := by
  have hsame : Lowers Eq (Action.ofExcept outcome) (Action.ofExcept outcome) :=
    lowers_ofExcept fun a h ↦ ⟨a, h, rfl⟩
  exact hsame.bind fun a _ heq ↦ heq ▸ hrest a

/-- Results are computed from results. -/
theorem Lowers.map {x : Action Ledger α} {y : Action Ledger β} (h : Lowers related x y)
    {f : α → γ} {g : β → δ} (hmap : ∀ a b, related a b → kept (f a) (g b)) :
    Lowers kept (x >>= fun a ↦ pure (f a)) (y >>= fun b ↦ pure (g b)) :=
  h.bind fun a b hrelated ↦ lowers_pure (hmap a b hrelated)

theorem lowers_collect {ι κ : Type} {f : ι → Action Ledger α} {g : κ → Action Ledger β}
    {is : List ι} {ks : List κ} (h : List.Forall₂ (fun i k ↦ Lowers related (f i) (g k)) is ks) :
    Lowers (List.Forall₂ related) (Action.collect f is) (Action.collect g ks) := by
  induction h with
  | nil => exact lowers_pure .nil
  | cons hhead _ ih =>
    exact hhead.bind fun _ _ hfirst ↦ ih.map fun _ _ hothers ↦ .cons hfirst hothers

theorem Heap.footprint_le {m n : Nat} (h : m ≤ n) : Heap.footprint m ≤ Heap.footprint n := by
  unfold Heap.footprint Heap.alignment
  omega

/-- Fewer bytes are placed wherever more are. -/
theorem lowers_place {bytes fewer : Bytes} (h : fewer.length ≤ bytes.length) :
    Lowers (fun _ _ ↦ True) (place bytes) (place fewer) := by
  intro high low hbelow a high' hrun
  rw [place_eq hbelow.sound'] at hrun
  obtain ⟨haddress, rfl⟩ := Prod.mk.inj hrun
  obtain ⟨hfits, _⟩ := Buffer.wordNumber_eq_ok.1 haddress
  have hlower := Buffer.wordNumber_eq_ok.2 ⟨Nat.lt_of_le_of_lt hbelow.top_le hfits, rfl⟩
  have hpadded : (Bytes.padTo 1 fewer).length ≤ (Bytes.padTo 1 bytes).length := by
    rw [Bytes.length_padTo, Bytes.length_padTo]
    omega
  refine ⟨low.heap.top, _, by rw [place_eq hbelow.sound, hlower], ?_, trivial⟩
  refine ⟨(Heap.Grown.place hbelow.sound fewer).sound, (Heap.Grown.place hbelow.sound' bytes).sound,
    Nat.add_le_add hbelow.top_le (Heap.footprint_le hpadded), fun hblocks ↦ ?_⟩
  obtain ⟨hfirst, hrest⟩ := List.forall_mem_cons.1 hblocks
  exact List.forall_mem_cons.2 ⟨Nat.lt_of_le_of_lt hpadded hfirst, hbelow.blocksFit hrest⟩

/-- Packing on a ledger of its own. -/
theorem Lowers.settle {x : Action Ledger α} {y : Action Ledger β} (h : Lowers related x y)
    {order : List Nat → List Nat} {high low : Ledger} (hbelow : low.Below high)
    {result : α × List Nat} {high' : Heap}
    (hrun : (Ledger.settle order x).run high.heap = (.ok result, high')) :
    ∃ b addresses low', (Ledger.settle order y).run low.heap = (.ok (b, addresses), low') ∧
      (Ledger.mk low' []).Below ⟨high', []⟩ ∧ related result.1 b := by
  have hempty : (Ledger.mk low.heap []).Below ⟨high.heap, []⟩ :=
    ⟨hbelow.sound, hbelow.sound', hbelow.top_le, hbelow.blocksFit⟩
  obtain ⟨b, ledger, hother, hend, hrelated⟩ :=
    h _ _ hempty result.1 ⟨high', result.2⟩ (run_settle_eq_ok hrun)
  exact ⟨b, ledger.owned, ledger.heap, run_settle_ok hother,
    ⟨hend.sound, hend.sound', hend.top_le, hend.blocksFit⟩, hrelated⟩

end Lowers

end Ledger

open Ledger (Lowers lowers_ofExcept lowers_ofExcept_bind lowers_pure lowers_refuse
  lowers_pure_right lowers_collect lowers_place)

/-- Byte sequences of one length. -/
def SameLength (bytes other : Bytes) : Prop := bytes.length = other.length

/-! ### Records -/

namespace Buffer

variable {out other result word : Bytes} {position : Int}

/-- Whether a word can be stored depends on the lengths alone. -/
theorem storeWord_of_sameLength {word' : Bytes} (h : SameLength out other)
    (hword : SameLength word word') (hstore : storeWord out position word = .ok result) :
    ∃ result', storeWord other position word' = .ok result' ∧ SameLength result result' := by
  unfold storeWord at hstore ⊢
  rcases hput : Bytes.putWord? out position word with _ | found
  · rw [hput] at hstore
    dsimp only at hstore
    split at hstore <;> exact absurd hstore (by simp)
  · rw [hput] at hstore
    obtain rfl := Except.ok.inj hstore
    obtain ⟨start, hstart, _⟩ := Option.map_eq_some_iff.1 hput
    have hother : Bytes.putWord? other position word' =
        some (other.take start ++ word' ++ other.drop (start + word'.length)) := by
      rw [Bytes.putWord?, ← h, ← hword, hstart]
      rfl
    rw [hother]
    exact ⟨_, rfl, (Bytes.length_of_putWord? hput).trans
      (h.trans (Bytes.length_of_putWord? hother).symm)⟩

theorem wordBytes_of_sameLength {width : Nat} (h : SameLength out other)
    (hword : wordBytes out position width = .ok word) :
    ∃ word', wordBytes other position width = .ok word' := by
  unfold wordBytes Bytes.wordAt? at hword ⊢
  rw [← h]
  rcases hstart : Bytes.wordStart? out.length position width with _ | start
  · rw [hstart] at hword
    dsimp only [Option.map] at hword
    split at hword <;> exact absurd hword (by simp)
  · exact ⟨_, rfl⟩

end Buffer

namespace RecordLayout

variable {attached : Bool} {out other : Bytes}

theorem packNumber_of_sameLength {name : String} {type : NumberType} {position : Int}
    {value : Value} {result : Bytes} (h : SameLength out other)
    (hpack : packNumber name type position value out = .ok result) :
    ∃ result', packNumber name type position value other = .ok result' ∧
      SameLength result result' := by
  have hstored : (do
      let _ ← Buffer.wordBytes out position type.size
      let bytes ← type.store (type.present value)
      Buffer.storeWord out position bytes : Except Fault Bytes) = .ok result := by
    unfold packNumber at hpack
    dsimp only at hpack
    split at hpack
    · exact absurd hpack (by simp)
    · exact hpack
  obtain ⟨word, hword, hrest⟩ := Outcome.bind_eq_ok.1 hstored
  obtain ⟨bytes, hbytes, hstore⟩ := Outcome.bind_eq_ok.1 hrest
  obtain ⟨word', hword'⟩ := Buffer.wordBytes_of_sameLength h hword
  obtain ⟨result', hstore', hlength⟩ := Buffer.storeWord_of_sameLength h rfl hstore
  refine ⟨result', ?_, hlength⟩
  rw [packNumber, hword', Outcome.ok_bind, hbytes, Outcome.ok_bind, hstore']

theorem lowers_packField (base : Int) (field : Member) (value : Value) (h : SameLength out other) :
    Lowers SameLength (packField attached base field value out)
      (packField attached base field value other) := by
  unfold packField
  split
  · exact lowers_ofExcept fun result hpack ↦ packNumber_of_sameLength h hpack
  · split
    · exact lowers_refuse _ _
    · split
      · refine lowers_pure ?_
        simp only [SameLength, Bytes.splice, List.length_append, List.length_take, List.length_drop]
        rw [show out.length = other.length from h]
      · split
        · refine (lowers_place (Nat.le_refl _)).bind fun address address' _ ↦ ?_
          refine lowers_ofExcept fun result hstore ↦ Buffer.storeWord_of_sameLength h ?_ hstore
          rw [SameLength, Bytes.length_ofNat, Bytes.length_ofNat]
        · exact lowers_refuse _ _

theorem lowers_packFields (base : Int) (fields : List Member) (values : List Value)
    (h : SameLength out other) :
    Lowers SameLength (packFields attached base fields values out)
      (packFields attached base fields values other) := by
  induction fields generalizing values out other with
  | nil => exact lowers_pure h
  | cons field fields ih =>
    cases values with
    | nil => exact lowers_pure h
    | cons value values =>
      exact (lowers_packField base field value h).bind fun _ _ hpacked ↦ ih values hpacked

theorem lowers_packFrom (layout : RecordLayout) (records : List Value) (number : Nat)
    (h : SameLength out other) :
    Lowers SameLength (layout.packFrom attached number records out)
      (layout.packFrom attached number records other) := by
  induction records generalizing number out other with
  | nil => exact lowers_pure h
  | cons record rest ih =>
    rw [packFrom, packFrom]
    split
    · exact lowers_refuse _ _
    · split
      · exact lowers_refuse _ _
      · exact (lowers_packFields _ _ _ h).bind fun _ _ hpacked ↦ ih (number + 1) hpacked

/-- Records are packed on a ledger of their own, and what they own is noted. -/
theorem lowers_packNoting (layout : RecordLayout) (records : Value) :
    Lowers SameLength (layout.packNoting attached records)
      (layout.packNoting attached records) := by
  intro high low hbelow out high' hrun
  obtain ⟨⟨⟩, ledger, hrunCheck, hrest⟩ := Action.run_bind_eq_ok.1 hrun
  obtain ⟨rfl, hcheck⟩ := Action.run_ofExcept_eq_ok.1 hrunCheck
  obtain ⟨⟨packed, addresses⟩, middle, hrunPack, hnote⟩ := Action.run_bind_eq_ok.1 hrest
  rw [Ledger.onHeap, Action.run_within] at hrunPack
  obtain ⟨hpack, rfl⟩ := Prod.mk.inj hrunPack
  obtain ⟨hout, rfl⟩ := Prod.mk.inj hnote
  obtain rfl := Except.ok.inj hout
  obtain ⟨after, hafter⟩ : ∃ after, after = ((layout.pack attached records).run ledger.heap).2 :=
    ⟨_, rfl⟩
  have hpacked :
      (layout.pack attached records).run ledger.heap = (.ok (packed, addresses), after) :=
    Prod.ext hpack hafter.symm
  rw [← hafter]
  unfold pack at hpacked
  rcases helements : records.elements? with _ | elements
  · rw [helements] at hpacked
    exact absurd (Prod.mk.inj hpacked).1 (by simp)
  · simp only [helements] at hpacked
    obtain ⟨zeros, _, hrunZeroed, hsettled⟩ := Action.run_bind_eq_ok.1 hpacked
    obtain ⟨rfl, hzeroed⟩ := Action.run_ofExcept_eq_ok.1 hrunZeroed
    obtain ⟨out', addresses', low', hlower, hend, hlength⟩ :=
      (layout.lowers_packFrom elements 0 rfl).settle hbelow hsettled
    have hpacked' : (layout.pack attached records).run low.heap =
        (.ok (out', addresses'), low') := by
      unfold pack
      simp only [helements]
      rw [Action.run_ofExcept_bind_ok hzeroed]
      exact hlower
    exact ⟨out', _, run_packNoting_ok hcheck hpacked',
      ⟨hend.sound, hend.sound', hend.top_le, hend.blocksFit⟩, hlength⟩

end RecordLayout

/-! ### Sequences -/

/-- A missing item leaves a word or an entry without an address, or is a number or a text like any
other. References have to be there, and so do records. -/
def ElementType.TakesMissing : ElementType → Prop
  | .reference _ | .compound _ _ => False
  | _ => True

/-- The items are the same but for some that are missing. -/
def Blanks (items blanked : List Value) : Prop :=
  List.Forall₂ (fun item kept ↦ kept = item ∨ kept = .null) items blanked

namespace Sequence

theorem lowers_placeText (value : Value) :
    Lowers (fun _ _ ↦ True) (placeText value) (placeText value) := by
  unfold placeText
  split
  · exact lowers_pure trivial
  · exact lowers_ofExcept_bind fun bytes ↦ lowers_place (Nat.le_refl _)

theorem lowers_placeSequence {items : Value → Action Ledger Bytes}
    (hitems : ∀ value, Lowers SameLength (items value) (items value)) (value : Value) :
    Lowers (fun _ _ ↦ True) (placeSequence items value) (placeSequence items value) := by
  unfold placeSequence
  split
  · exact lowers_pure trivial
  · refine (hitems value).bind fun payload other hlength ↦ ?_
    refine (lowers_place (Nat.le_of_eq hlength.symm)).bind fun _ _ _ ↦ ?_
    exact lowers_ofExcept_bind fun _ ↦ lowers_pure trivial

/-- Words back to back take up as many bytes as there are words. -/
theorem sameLength_flatMap {α : Type} {f : α → Bytes} {width : Nat}
    (hf : ∀ a, (f a).length = width) {as bs : List α}
    (h : List.Forall₂ (fun _ _ ↦ True) as bs) : SameLength (as.flatMap f) (bs.flatMap f) := by
  rw [SameLength, length_flatMap_of_forall fun a _ ↦ hf a, length_flatMap_of_forall fun b _ ↦ hf b,
    h.length_eq]

/-- Elements that can be laid out on one heap can be laid out on every heap that ends no later, in
as many bytes. -/
theorem lowers_encode (base : ElementType) (value : Value) :
    Lowers SameLength (encode base value) (encode base value) := by
  have hsame {outcome : Except Fault Bytes} :
      Lowers SameLength (Action.ofExcept outcome) (Action.ofExcept outcome) :=
    lowers_ofExcept fun bytes h ↦ ⟨bytes, h, rfl⟩
  rcases helements : value.elements? with _ | values
  · have hrefused : encode base value = Action.refuse .operand := by
      rw [encode.eq_def]
      simp only [helements]
    rw [hrefused]
    exact lowers_refuse _ _
  · rw [encode.eq_def]
    simp only [helements]
    match base with
    | .number type => exact hsame
    | .enum backing members => exact hsame
    | .fixedString width => exact hsame
    | .reference width => exact hsame
    | .string =>
      exact (lowers_collect (List.forall₂_same.2 fun value _ ↦ lowers_placeText value)).map
        fun _ _ h ↦ sameLength_flatMap (fun _ ↦ Bytes.length_ofNat _ _) h
    | .vlen element =>
      refine (lowers_collect (List.forall₂_same.2 fun value _ ↦ ?_)).map
        fun _ _ h ↦ sameLength_flatMap (fun _ ↦ Buffer.length_entryBytes _ _) h
      exact lowers_placeSequence (fun value ↦ lowers_encode element value) value
    | .compound members size => exact RecordLayout.lowers_packNoting _ value
    | .array element length => exact lowers_refuse _ _

/-! ### Missing items -/

variable {items blanked : List Value}

/-- What every item and a missing one can be stored as, the items can be stored as with some of them
missing. -/
theorem mapM_of_blanks {α : Type} {f : Value → Except Fault α}
    (hnull : ∀ item a, f item = .ok a → ∃ a, f .null = .ok a) (h : Blanks items blanked)
    {as : List α} (hitems : items.mapM f = .ok as) :
    ∃ others, blanked.mapM f = .ok others := by
  have hall := Outcome.exists_mapM_eq_ok_iff.1 ⟨as, hitems⟩
  refine Outcome.exists_mapM_eq_ok_iff.2 fun kept hkept ↦ ?_
  obtain ⟨item, hitem, hsame⟩ := Outcome.exists_mem_of_forall₂ h hkept
  obtain ⟨a, ha⟩ := hall item hitem
  rcases hsame with rfl | rfl
  · exact ⟨a, ha⟩
  · exact hnull item a ha

theorem encodeNumbers_of_blanks {name : String} {type : NumberType} (h : Blanks items blanked)
    {bytes : Bytes} (hitems : encodeNumbers name type items = .ok bytes) :
    ∃ others, encodeNumbers name type blanked = .ok others := by
  obtain ⟨parts, hparts, rfl⟩ := encodeNumbers_eq_ok hitems
  have hzero : ∃ bytes, type.store (type.present .null) = .ok bytes := by
    cases type <;> exact ⟨_, rfl⟩
  obtain ⟨others, hothers⟩ :=
    mapM_of_blanks (fun _ _ _ ↦ hzero) h (Outcome.mapM_eq_ok_iff.2 hparts)
  have hstored : type.storeAll (blanked.map type.present) = .ok others.flatten := by
    rw [NumberType.storeAll_eq_mapM, List.mapM_map]
    exact congrArg (Except.map List.flatten) hothers
  exact ⟨others.flatten, by rw [encodeNumbers, hstored]⟩

/-- What stands for an item of an enumeration. -/
def resolveConstant (members : List (String × Int)) : Value → Except Fault Value
  | .text name => (ElementType.valueOf members name).map .int
  | other => .ok other

theorem resolveConstants_eq_mapM (members : List (String × Int)) (values : List Value) :
    resolveConstants members values = values.mapM (resolveConstant members) := by
  induction values with
  | nil => rfl
  | cons value rest ih =>
    rw [Outcome.mapM_cons_ok, resolveConstants.eq_def, ← ih]
    cases value <;> rfl

theorem resolveConstants_of_blanks {members : List (String × Int)} (h : Blanks items blanked)
    {found : List Value} (hitems : resolveConstants members items = .ok found) :
    ∃ others, resolveConstants members blanked = .ok others ∧ Blanks found others := by
  rw [resolveConstants_eq_mapM] at hitems ⊢
  have hresolved := Outcome.mapM_eq_ok_iff.1 hitems
  clear hitems
  induction h generalizing found with
  | nil =>
    obtain rfl := List.forall₂_nil_left_iff.1 hresolved
    exact ⟨[], rfl, .nil⟩
  | cons hkept _ ih =>
    obtain ⟨first, others, hfirst, hothers, rfl⟩ := List.forall₂_cons_left_iff.1 hresolved
    obtain ⟨rest, hrest, hblanks⟩ := ih hothers
    rw [Outcome.mapM_cons_ok, hrest]
    rcases hkept with rfl | rfl
    · rw [hfirst]
      exact ⟨first :: rest, rfl, .cons (.inl rfl) hblanks⟩
    · exact ⟨.null :: rest, rfl, .cons (.inr rfl) hblanks⟩

/-- Items that are there or missing take up as many bytes each. -/
theorem lowers_collect_blanks {α : Type} {f : Value → Action Ledger α}
    (hf : ∀ value, Lowers (fun _ _ ↦ True) (f value) (f value)) (haccounts : ∀ value,
    Accounts (f value)) {nothing : α} (hnull : f .null = pure nothing) (h : Blanks items blanked) :
    Lowers (List.Forall₂ fun _ _ ↦ True) (Action.collect f items) (Action.collect f blanked) := by
  refine lowers_collect (h.imp fun item kept hkept ↦ ?_)
  rcases hkept with rfl | rfl
  · exact hf kept
  · rw [hnull]
    exact lowers_pure_right (haccounts item) fun _ ↦ trivial

/-- Assumes: elements of a type that takes missing items. Where they can be laid out, they can be
laid out with some of them missing, on every heap that ends no later. -/
theorem lowers_encode_blanks {base : ElementType} (hbase : base.TakesMissing) {value other : Value}
    (hvalue : value.elements? = some items) (hother : other.elements? = some blanked)
    (h : Blanks items blanked) :
    Lowers (fun _ _ ↦ True) (encode base value) (encode base other) := by
  rw [encode.eq_def, encode.eq_def base other]
  simp only [hvalue, hother]
  match base, hbase with
  | .number type, _ =>
    refine lowers_ofExcept fun bytes hbytes ↦ ?_
    obtain ⟨others, hothers⟩ := encodeNumbers_of_blanks h hbytes
    exact ⟨others, hothers, trivial⟩
  | .enum backing members, _ =>
    refine lowers_ofExcept fun bytes hbytes ↦ ?_
    obtain ⟨found, hfound, hbytes⟩ := Outcome.bind_eq_ok.1 hbytes
    obtain ⟨resolved, hresolved, hblanks⟩ := resolveConstants_of_blanks h hfound
    obtain ⟨others, hothers⟩ := encodeNumbers_of_blanks hblanks hbytes
    exact ⟨others, Outcome.bind_eq_ok.2 ⟨resolved, hresolved, hothers⟩, trivial⟩
  | .fixedString width, _ =>
    refine lowers_ofExcept fun bytes hbytes ↦ ?_
    obtain ⟨parts, hparts, _⟩ := Outcome.bind_eq_ok.1 hbytes
    obtain ⟨others, hothers⟩ := mapM_of_blanks
      (fun _ _ hpart ↦ ⟨_, fixedPart_eq_ok.2 ⟨(fixedPart_eq_ok.1 hpart).1, [], rfl, rfl⟩⟩) h hparts
    exact ⟨_, Outcome.bind_eq_ok.2 ⟨others, hothers, rfl⟩, trivial⟩
  | .string, _ =>
    exact (lowers_collect_blanks lowers_placeText accounts_placeText rfl h).map fun _ _ _ ↦ trivial
  | .vlen element, _ =>
    exact (lowers_collect_blanks (lowers_placeSequence (lowers_encode element))
      (accounts_placeSequence (accounts_encode element)) rfl h).map fun _ _ _ ↦ trivial
  | .array element length, _ => exact lowers_refuse _ _

/-! ### Arrays with missing items -/

/-- The arrays are the same but for items that are missing; a missing array stays missing. -/
def BlanksEach (arrays blanked : List Value) : Prop :=
  List.Forall₂ (fun array kept ↦ (array = .null ∧ kept = .null) ∨
    (array ≠ .null ∧ ∀ items, array.elements? = some items →
      ∃ others, kept.elements? = some others ∧ Blanks items others)) arrays blanked

/-- An array that is there is laid out before the next one is packed. -/
theorem packArraysFrom_cons {base : ElementType} {length size : Int} {number : Nat} {value : Value}
    (hvalue : value.elements? = some items) (rest : List Value) (out : Bytes) :
    packArraysFrom base length size number (value :: rest) out =
      if (items.length : Int) ≠ length then
        .refuse (.conversion (.arrayLength number items.length length))
      else encode base value >>= fun bytes ↦ packArraysFrom base length size (number + 1) rest
        (Bytes.splice out (number * size) ((number + 1) * size) bytes) := by
  rw [packArraysFrom]
  · rw [hvalue]
  · rintro rfl
    exact absurd hvalue (by simp [Value.elements?])

/-- A value without elements is not an array. -/
theorem packArraysFrom_cons_eq_refuse {base : ElementType} {length size : Int} {number : Nat}
    {value : Value} (hnull : value ≠ .null) (hvalue : value.elements? = none) (rest : List Value)
    (out : Bytes) :
    packArraysFrom base length size number (value :: rest) out = .refuse .operand := by
  rw [packArraysFrom]
  · rw [hvalue]
  · exact hnull

/-- Assumes: arrays of a type that takes missing items. Where they can be packed, they can be packed
with some items missing, on every heap that ends no later. -/
theorem lowers_packArraysFrom {base : ElementType} (hbase : base.TakesMissing) (length size : Int)
    {arrays blanked : List Value} (h : BlanksEach arrays blanked) (number : Nat)
    (out other : Bytes) :
    Lowers (fun _ _ ↦ True) (packArraysFrom base length size number arrays out)
      (packArraysFrom base length size number blanked other) := by
  induction h generalizing number out other with
  | nil => exact lowers_pure trivial
  | @cons array kept rest others hhead _ ih =>
    rcases hhead with ⟨rfl, rfl⟩ | ⟨hnull, hitems⟩
    · rw [packArraysFrom, packArraysFrom]
      exact ih (number + 1) out other
    · rcases harray : array.elements? with _ | items
      · rw [packArraysFrom_cons_eq_refuse hnull harray]
        exact lowers_refuse _ _
      · obtain ⟨blanked, hblanked, hblanks⟩ := hitems items harray
        rw [packArraysFrom_cons harray, packArraysFrom_cons hblanked, hblanks.length_eq]
        split
        · exact lowers_refuse _ _
        · exact (lowers_encode_blanks hbase harray hblanked hblanks).bind fun _ _ _ ↦
            ih (number + 1) _ _

end Sequence

end Stowage
