import Stowage.Proofs.Payloads.Evolution

/-!
# The first payload of an element

Copying follows the addresses of an element one after another, and whether it leaves a copy behind
when it is refused is decided by the first of them that is not null. `firstPayloadAt` finds it
without changing anything: it looks for the payload that would be copied first, the inner payloads
of a sequence coming before the sequence itself.

When there is none, copying and freeing do nothing. When it cannot be followed, copying is refused
before anything is placed. Otherwise at least one copy is placed, whatever happens after that, and
nothing takes it away again (`opens_copyEach`).
-/

set_option autoImplicit false

namespace Stowage

/-- What the first payload comes to when elements are copied. -/
inductive FirstPayload where
  /-- There is none, because every address is null. -/
  | absent
  /-- It can be followed to its end. -/
  | copied
  /-- It cannot be read. -/
  | refused
  deriving DecidableEq, Repr

namespace FirstPayload

/-- The first payload of one part and another part behind it. -/
def orElse : FirstPayload → FirstPayload → FirstPayload
  | absent, next => next
  | copied, _ => copied
  | refused, _ => refused

/-- The first payload of `count` parts from a first one on. -/
def ofParts (f : Nat → FirstPayload) : (first count : Nat) → FirstPayload
  | _, 0 => absent
  | first, count + 1 => (f first).orElse (ofParts f (first + 1) count)

/-- The first payload behind an address that was loaded: the one that `rest` finds in what the
address leads to. -/
def follow {α : Type} (loaded : Except Fault α) (address : α → Nat) (payload? : α → Option Bytes)
    (rest : α → Bytes → FirstPayload) : FirstPayload :=
  match loaded with
  | .error _ => refused
  | .ok a =>
    if address a = Heap.nullAddress then absent
    else
      match payload? a with
      | none => refused
      | some payload => rest a payload

/-- Nothing is found in two parts when nothing is found in either. -/
theorem orElse_eq_absent {first next : FirstPayload} :
    first.orElse next = absent ↔ first = absent ∧ next = absent := by
  cases first <;> simp [orElse]

/-- Nothing is found behind an address only when it is null, as long as something is found behind
every other. -/
theorem follow_eq_absent {α : Type} {loaded : Except Fault α} {address : α → Nat}
    {payload? : α → Option Bytes} {rest : α → Bytes → FirstPayload}
    (hrest : ∀ a payload, rest a payload ≠ absent)
    (h : follow loaded address payload? rest = absent) :
    ∃ a, loaded = .ok a ∧ address a = Heap.nullAddress := by
  unfold follow at h
  split at h
  · exact absurd h (by simp)
  · next a =>
    split at h
    · next hnull => exact ⟨a, rfl, hnull⟩
    · split at h
      · exact absurd h (by simp)
      · exact absurd h (hrest a _)

end FirstPayload

/-- What can be read in a heap. -/
structure Heap.Readable where
  /-- The bytes at an address. -/
  bytes : (address count : Int) → Option Bytes
  /-- The string at an address. -/
  string : (address : Int) → Option Bytes

/-- What can be read in the heap. -/
def Heap.readable (heap : Heap) : Heap.Readable :=
  ⟨fun address count ↦ (heap.read address count).toOption,
    fun address ↦ (heap.readString address).toOption⟩

mutual

/-- The first payload of the element at a position. -/
def ElementType.firstPayloadAt (readable : Heap.Readable) :
    ElementType → (position : Int) → Bytes → FirstPayload
  | .string, position, buffer =>
    FirstPayload.follow (Buffer.loadWord buffer position addressSize) (fun address ↦ address)
      (fun address ↦ readable.string address) fun _ _ ↦ .copied
  | .vlen element, position, buffer =>
    FirstPayload.follow (Buffer.loadEntry buffer position) (fun entry ↦ entry.2)
      (fun entry ↦ readable.bytes entry.2 (entry.1 * element.size)) fun entry payload ↦
        (if element.isVariable then
          FirstPayload.ofParts
            (fun k ↦ element.firstPayloadAt readable (k * element.size) payload) 0 entry.1
        else .absent).orElse .copied
  | .compound members _, position, buffer => members.firstPayloadAt readable position buffer
  | .array element length, position, buffer =>
    if element.isVariable then
      FirstPayload.ofParts
        (fun k ↦ element.firstPayloadAt readable (position + k * element.size) buffer)
        0 length.toNat
    else .absent
  | _, _, _ => .absent

/-- The first payload of the members of a record at a position. -/
def Members.firstPayloadAt (readable : Heap.Readable) :
    Members → (position : Int) → Bytes → FirstPayload
  | .nil, _, _ => .absent
  | .cons _ offset type rest, position, buffer =>
    (if type.isVariable then type.firstPayloadAt readable (position + offset) buffer
      else .absent).orElse (rest.firstPayloadAt readable position buffer)

end

/-- The first payload of `count` elements back to back. -/
def ElementType.firstPayloadEach (readable : Heap.Readable) (type : ElementType) (count : Nat)
    (buffer : Bytes) : FirstPayload :=
  if type.isVariable then
    FirstPayload.ofParts (fun i ↦ type.firstPayloadAt readable (i * type.size) buffer) 0 count
  else .absent

namespace Heap

open Stowage.Action (Preserves)

variable {heap : Heap}

theorem not_closed_of_read {address count : Int} {bytes : Bytes}
    (h : heap.read address count = .ok bytes) : heap.closed = false := by
  unfold read at h
  split at h
  · exact absurd h (by simp)
  · split at h
    · exact absurd h (by simp)
    · next hopen => exact Bool.eq_false_iff.2 hopen

theorem not_closed_of_readString {address : Int} {text : Bytes}
    (h : heap.readString address = .ok text) : heap.closed = false := by
  unfold readString at h
  split at h
  · exact absurd h (by simp)
  · split at h
    · exact absurd h (by simp)
    · next hopen => exact Bool.eq_false_iff.2 hopen

/-! ### Heaps that grow -/

/-- Blocks are added at the top of the heap and nothing else happens. -/
def Grows (before after : Heap) : Prop := before.Sound → ∃ added, before.Grown after added

/-- Placing bytes adds blocks only. -/
theorem staysWithin_grows : StaysWithin Grows place where
  refl := fun _ hsound ↦ ⟨[], .refl hsound⟩
  trans := by
    intro first second third hfirst hsecond hsound
    obtain ⟨added, hadded⟩ := hfirst hsound
    obtain ⟨more, hmore⟩ := hsecond hadded.sound
    exact ⟨added ++ more, hadded.trans hmore⟩
  step := by
    intro bytes heap hsound
    rw [place_eq hsound]
    exact ⟨[heap.top], .place hsound bytes⟩

/-- How a run on a heap starts that copies payloads when the first one is known: without a payload
it gives the bytes as they are, with one that cannot be followed it is refused at once, and with one
that can it adds a block. -/
def Opens (heap : Heap) (bytes : Bytes) (x : Action Heap Bytes) : FirstPayload → Prop
  | .absent => x.run heap = (.ok bytes, heap)
  | .copied => heap.Sound ∧ ∃ address added, heap.Grown (x.run heap).2 (address :: added)
  | .refused => ∃ fault, x.run heap = (.error fault, heap)

namespace Opens

variable {bytes : Bytes} {x y : Action Heap Bytes} {first : FirstPayload}

theorem congr_run (hx : heap.Opens bytes x first) (h : y.run heap = x.run heap) :
    heap.Opens bytes y first := by
  cases first <;> simpa only [Opens, h] using hx

/-- Placing a copy adds its block, whatever comes after it as long as this only adds blocks. -/
theorem place (hsound : heap.Sound) (copy : Bytes) {f : Nat → Action Heap Bytes}
    (hgrows : ∀ address, Preserves Grows (f address)) :
    heap.Opens bytes (Heap.place copy >>= f) .copied := by
  have hplaced := Grown.place hsound copy
  obtain ⟨more, hmore⟩ := hgrows heap.top _ hplaced.sound
  refine ⟨hsound, heap.top, more, ?_⟩
  rw [Action.run_bind_ok (place_eq hsound copy)]
  exact hplaced.trans hmore

/-- What a run starts with stays, whatever comes after it as long as this only adds blocks. -/
theorem bind (hx : heap.Opens bytes x first) {f : Bytes → Action Heap Bytes} {result : Bytes}
    {next : FirstPayload} (hgrows : ∀ bytes, Preserves Grows (f bytes))
    (hf : heap.Opens result (f bytes) next) : heap.Opens result (x >>= f) (first.orElse next) := by
  cases first with
  | absent =>
    change heap.Opens result (x >>= f) next
    exact hf.congr_run (Action.run_bind_ok hx f)
  | copied =>
    obtain ⟨hsound, address, added, hgrown⟩ := hx
    refine ⟨hsound, ?_⟩
    rcases hrun : x.run heap with ⟨fault | copy, middle⟩
    · rw [Action.run_bind_error hrun]
      rw [hrun] at hgrown
      exact ⟨address, added, hgrown⟩
    · rw [Action.run_bind_ok hrun]
      rw [hrun] at hgrown
      obtain ⟨more, hmore⟩ := hgrows copy middle hgrown.sound
      exact ⟨address, added ++ more, hgrown.trans hmore⟩
  | refused =>
    obtain ⟨fault, hrun⟩ := hx
    exact ⟨fault, Action.run_bind_error hrun f⟩

/-- Parts are copied one after another, and the first one with a payload decides. -/
theorem iterate {f : Nat → Bytes → Action Heap Bytes} {part : Nat → FirstPayload}
    (hgrows : ∀ k bytes, Preserves Grows (f k bytes))
    (hf : ∀ k, heap.Opens bytes (f k bytes) (part k)) (first count : Nat) :
    heap.Opens bytes (Action.iterate f first count bytes)
      (FirstPayload.ofParts part first count) := by
  induction count generalizing first with
  | zero => rfl
  | succ count ih =>
    refine (hf first).bind (fun bytes ↦ ?_) (ih (first + 1))
    exact Preserves.iterate staysWithin_grows.refl staysWithin_grows.trans hgrows _ _ _

/-- An address is loaded and, unless it is null, followed. -/
theorem follow {α : Type} {loaded : Except Fault α} {address : α → Nat}
    {payload? : α → Heap → Except Fault Bytes} {f : α → Bytes → Action Heap Bytes}
    {rest : α → Bytes → FirstPayload}
    (hf : ∀ a payload, payload? a heap = .ok payload →
      heap.Opens bytes (f a payload) (rest a payload)) :
    heap.Opens bytes
      (Action.ofExcept loaded >>= fun a ↦
        if address a = nullAddress then pure bytes
        else Action.reading (payload? a) >>= fun payload ↦ f a payload)
      (.follow loaded address (fun a ↦ (payload? a heap).toOption) rest) := by
  rcases loaded with fault | a
  · exact ⟨fault, rfl⟩
  · refine congr_run ?_ (Action.run_ofExcept_bind_ok rfl _ heap)
    unfold FirstPayload.follow
    dsimp only
    by_cases hnull : address a = nullAddress
    · rw [if_pos hnull, if_pos hnull]
      rfl
    · rw [if_neg hnull, if_neg hnull]
      rcases hread : payload? a heap with fault | payload
      · exact ⟨fault, Action.run_bind_error ((Action.run_reading _ heap).trans (by rw [hread])) _⟩
      · refine (hf a payload hread).congr_run (Action.run_bind_ok ?_ _)
        rw [Action.run_reading, hread]

/-- The heap stays as it is, or there is a first payload and blocks are added for it. -/
theorem heap_cases (h : heap.Opens bytes x first) :
    (first ≠ .copied ∧ (x.run heap).2 = heap) ∨
      (first = .copied ∧ heap.Sound ∧
        ∃ address added, heap.Grown (x.run heap).2 (address :: added)) := by
  cases first with
  | absent => exact .inl ⟨by simp, congrArg Prod.snd h⟩
  | copied => exact .inr ⟨rfl, h⟩
  | refused =>
    obtain ⟨fault, hrun⟩ := h
    exact .inl ⟨by simp, congrArg Prod.snd hrun⟩

/-- A run that is refused has a first payload. -/
theorem ne_absent (h : heap.Opens bytes x first) {fault : Fault} {after : Heap}
    (hrun : x.run heap = (.error fault, after)) : first ≠ .absent := by
  rintro rfl
  exact absurd (Prod.mk.inj (hrun.symm.trans h)).1 (by simp)

/-- A run that succeeds does not have a first payload that cannot be followed. -/
theorem ne_refused (h : heap.Opens bytes x first) {result : Bytes} {after : Heap}
    (hrun : x.run heap = (.ok result, after)) : first ≠ .refused := by
  rintro rfl
  obtain ⟨fault, hfault⟩ := h
  exact absurd (Prod.mk.inj (hrun.symm.trans hfault)).1 (by simp)

end Opens

end Heap

/-! ### Copying -/

section Copying

open Stowage.Action (Preserves)
open Heap (staysWithin_grows)

variable {heap : Heap}

theorem opens_copyString (hopen : heap.closed = false → heap.Sound) (position : Int)
    (buffer : Bytes) :
    heap.Opens buffer (copyString position buffer)
      (ElementType.string.firstPayloadAt heap.readable position buffer) := by
  rw [ElementType.firstPayloadAt, copyString]
  refine Heap.Opens.follow fun address text hread ↦ ?_
  refine .place (hopen (Heap.not_closed_of_readString hread)) (text ++ [0]) fun copy ↦ ?_
  exact Action.preserves_ofExcept staysWithin_grows.refl _

theorem opens_copySequence (hopen : heap.closed = false → heap.Sound) {size : Int}
    {inner : Nat → Bytes → Action Heap Bytes} (first : Nat → Bytes → FirstPayload)
    (hinner : ∀ count payload, heap.Opens payload (inner count payload) (first count payload))
    (position : Int) (buffer : Bytes) :
    heap.Opens buffer (copySequence size inner position buffer)
      (.follow (Buffer.loadEntry buffer position) (fun entry ↦ entry.2)
        (fun entry ↦ heap.readable.bytes entry.2 (entry.1 * size))
        fun entry payload ↦ (first entry.1 payload).orElse .copied) := by
  refine Heap.Opens.follow fun entry payload hread ↦ ?_
  have hsound := hopen (Heap.not_closed_of_read hread)
  have hplace (payload : Bytes) : Preserves Heap.Grows (Heap.place payload >>= fun copy ↦
      Action.ofExcept (Buffer.storeWord buffer position (Buffer.entryBytes entry.1 copy))) := by
    refine Preserves.bind staysWithin_grows.trans (staysWithin_grows.step payload) fun copy ↦ ?_
    exact Action.preserves_ofExcept staysWithin_grows.refl _
  refine (hinner entry.1 payload).bind hplace (.place hsound payload fun copy ↦ ?_)
  exact Action.preserves_ofExcept staysWithin_grows.refl _

mutual

/-- Copying an element starts as its first payload says. -/
theorem ElementType.opens_copyAt (hopen : heap.closed = false → heap.Sound) (type : ElementType)
    (position : Int) (buffer : Bytes) :
    heap.Opens buffer (type.copyAt position buffer)
      (type.firstPayloadAt heap.readable position buffer) := by
  match type with
  | .number _ => rfl
  | .fixedString _ => rfl
  | .reference _ => rfl
  | .enum _ _ => rfl
  | .string => exact opens_copyString hopen position buffer
  | .vlen element =>
    rw [ElementType.copyAt, ElementType.firstPayloadAt]
    refine opens_copySequence hopen
      (fun count payload ↦
        if element.isVariable then
          .ofParts (fun k ↦ element.firstPayloadAt heap.readable (k * element.size) payload) 0 count
        else .absent)
      (fun count payload ↦ ?_) position buffer
    by_cases hvariable : element.isVariable = true
    · rw [if_pos hvariable, if_pos hvariable]
      exact .iterate
        (fun k payload ↦ element.preserves_copyAt staysWithin_grows (k * element.size) payload)
        (fun k ↦ ElementType.opens_copyAt hopen element _ payload) 0 count
    · rw [if_neg hvariable, if_neg hvariable]
      rfl
  | .array element length =>
    rw [ElementType.copyAt, ElementType.firstPayloadAt]
    by_cases hvariable : element.isVariable = true
    · rw [if_pos hvariable, if_pos hvariable]
      exact .iterate
        (fun k ↦ element.preserves_copyAt staysWithin_grows (position + k * element.size))
        (fun k ↦ ElementType.opens_copyAt hopen element _ buffer) 0 length.toNat
    · rw [if_neg hvariable, if_neg hvariable]
      rfl
  | .compound members size =>
    rw [ElementType.copyAt, ElementType.firstPayloadAt]
    exact Members.opens_copyAt hopen members position buffer

theorem Members.opens_copyAt (hopen : heap.closed = false → heap.Sound) (members : Members)
    (position : Int) (buffer : Bytes) :
    heap.Opens buffer (members.copyAt position buffer)
      (members.firstPayloadAt heap.readable position buffer) := by
  match members with
  | .nil => rfl
  | .cons name offset type rest =>
    rw [Members.copyAt, Members.firstPayloadAt]
    have hrest := Members.opens_copyAt hopen rest position buffer
    by_cases hvariable : type.isVariable = true
    · rw [if_pos hvariable, if_pos hvariable]
      exact (ElementType.opens_copyAt hopen type _ buffer).bind
        (fun buffer ↦ rest.preserves_copyAt staysWithin_grows position buffer) hrest
    · rw [if_neg hvariable, if_neg hvariable]
      exact hrest

end

/-- Copying elements back to back starts as their first payload says. -/
theorem ElementType.opens_copyEach (hopen : heap.closed = false → heap.Sound) (type : ElementType)
    (count : Nat) (buffer : Bytes) :
    heap.Opens buffer (type.copyEach count buffer)
      (type.firstPayloadEach heap.readable count buffer) := by
  unfold copyEach firstPayloadEach
  by_cases hvariable : type.isVariable = true
  · rw [if_pos hvariable, if_pos hvariable]
    exact .iterate (fun k buffer ↦ type.preserves_copyAt staysWithin_grows (k * type.size) buffer)
      (fun k ↦ opens_copyAt hopen type _ buffer) 0 count
  · rw [if_neg hvariable, if_neg hvariable]
    rfl

end Copying

/-! ### Freeing where there is no payload -/

section Freeing

variable {readable : Heap.Readable}

theorem iterate_eq_pure {f : Nat → Unit → Action Heap Unit} {part : Nat → FirstPayload}
    (hf : ∀ k, part k = .absent → f k () = pure ()) {first count : Nat}
    (h : FirstPayload.ofParts part first count = .absent) :
    Action.iterate f first count () = pure () := by
  induction count generalizing first with
  | zero => rfl
  | succ count ih =>
    obtain ⟨hfirst, hothers⟩ := FirstPayload.orElse_eq_absent.1 h
    rw [Action.iterate, hf first hfirst]
    exact ih hothers

mutual

/-- Freeing an element without payloads does nothing. -/
theorem ElementType.freeAt_of_absent (type : ElementType) {position : Int} {buffer : Bytes}
    (h : type.firstPayloadAt readable position buffer = .absent) :
    type.freeAt position buffer = pure () := by
  match type with
  | .number _ => rfl
  | .fixedString _ => rfl
  | .reference _ => rfl
  | .enum _ _ => rfl
  | .string =>
    obtain ⟨address, hload, hnull⟩ := FirstPayload.follow_eq_absent (fun _ _ ↦ by simp) h
    rw [ElementType.freeAt, freeString, hload]
    exact if_pos hnull
  | .vlen element =>
    have hcopied (first : FirstPayload) : first.orElse .copied ≠ .absent := fun hnone ↦ by
      have := (FirstPayload.orElse_eq_absent.1 hnone).2
      simp at this
    obtain ⟨entry, hload, hnull⟩ := FirstPayload.follow_eq_absent (fun _ _ ↦ hcopied _) h
    rw [ElementType.freeAt, freeSequence, hload]
    exact if_pos hnull
  | .array element length =>
    rw [ElementType.firstPayloadAt] at h
    rw [ElementType.freeAt]
    by_cases hvariable : element.isVariable = true
    · rw [if_pos hvariable] at h ⊢
      exact iterate_eq_pure (fun k hk ↦ ElementType.freeAt_of_absent element hk) h
    · rw [if_neg hvariable]
  | .compound members size =>
    exact Members.freeAt_of_absent members h

theorem Members.freeAt_of_absent (members : Members) {position : Int} {buffer : Bytes}
    (h : members.firstPayloadAt readable position buffer = .absent) :
    members.freeAt position buffer = pure () := by
  match members with
  | .nil => rfl
  | .cons name offset type rest =>
    obtain ⟨hfirst, hothers⟩ := FirstPayload.orElse_eq_absent.1 h
    have hrest := Members.freeAt_of_absent rest hothers
    rw [Members.freeAt]
    by_cases hvariable : type.isVariable = true
    · rw [if_pos hvariable] at hfirst ⊢
      rw [ElementType.freeAt_of_absent type hfirst]
      exact hrest
    · rw [if_neg hvariable]
      exact hrest

end

/-- Freeing elements without payloads does nothing. -/
theorem ElementType.freeEach_of_absent {type : ElementType} {count : Nat} {buffer : Bytes}
    (h : type.firstPayloadEach readable count buffer = .absent) :
    type.freeEach count buffer = pure () := by
  rw [freeEach]
  unfold firstPayloadEach at h
  by_cases hvariable : type.isVariable = true
  · rw [if_pos hvariable] at h ⊢
    exact iterate_eq_pure (fun k hk ↦ type.freeAt_of_absent hk) h
  · rw [if_neg hvariable]

end Freeing

end Stowage
