import Stowage.Registry
import Stowage.Proofs.ElementType.WellFormed

/-!
# Registries that are extended

Registering only adds types at the end, so a type keeps its number (`typeOf_of_extends`). What is
added is the type and types that it contains, each after what it contains itself; so whatever is
kept by adding one such type is kept by registering (`ElementType.registerIn_induction`).
-/

set_option autoImplicit false

namespace Stowage

/-- The types that a type contains directly. -/
def ElementType.parts : ElementType → List ElementType
  | .vlen element => [element]
  | .array element _ => [element]
  | .compound members _ => members.toList.map (·.type)
  | _ => []

namespace Registry

/-- The second registry has the types of the first under the same numbers. -/
def Extends (before after : Registry) : Prop := ∃ more, after.types = before.types ++ more

variable {before middle after registry : Registry} {type : ElementType} {id : Int}

theorem Extends.refl (registry : Registry) : registry.Extends registry :=
  ⟨[], (List.append_nil _).symm⟩

theorem Extends.trans (first : before.Extends middle) (second : middle.Extends after) :
    before.Extends after := by
  obtain ⟨more, hmore⟩ := first
  obtain ⟨others, hothers⟩ := second
  exact ⟨more ++ others, by rw [hothers, hmore, List.append_assoc]⟩

/-- A number stands for the type at its place. -/
theorem typeOf_eq_ok :
    registry.typeOf id = .ok type ↔ 0 < id ∧ registry.types[(id - 1).toNat]? = some type := by
  unfold typeOf
  by_cases hid : id ≤ 0
  · rw [if_pos hid]
    constructor
    · exact fun h ↦ absurd h (by simp)
    · rintro ⟨hpos, _⟩
      omega
  · rw [if_neg hid]
    rcases registry.types[(id - 1).toNat]? with _ | found
    · simp
    · simp only [Except.ok.injEq, Option.some.injEq]
      exact ⟨fun h ↦ ⟨by omega, h⟩, fun h ↦ h.2⟩

theorem mem_of_typeOf (h : registry.typeOf id = .ok type) : type ∈ registry.types :=
  List.mem_of_getElem? (typeOf_eq_ok.1 h).2

theorem typeOf_of_extends (hextends : before.Extends after) (h : before.typeOf id = .ok type) :
    after.typeOf id = .ok type := by
  obtain ⟨more, hmore⟩ := hextends
  obtain ⟨hpos, hfound⟩ := typeOf_eq_ok.1 h
  refine typeOf_eq_ok.2 ⟨hpos, ?_⟩
  obtain ⟨hlt, _⟩ := List.getElem?_eq_some_iff.1 hfound
  rw [hmore, List.getElem?_append_left hlt]
  exact hfound

theorem extends_push (registry : Registry) (type : ElementType) :
    registry.Extends (registry.push type) := by
  unfold push
  split
  · exact .refl registry
  · exact ⟨[type], rfl⟩

/-- What a pushed registry holds. -/
theorem mem_push {other : ElementType} :
    other ∈ (registry.push type).types ↔ other ∈ registry.types ∨ other = type := by
  unfold push
  split
  · next hmem =>
    have hmem : type ∈ registry.types := by simpa using hmem
    constructor
    · exact Or.inl
    · rintro (h | rfl)
      · exact h
      · exact hmem
  · rw [List.mem_append, List.mem_singleton]

end Registry

open Registry (Extends extends_push mem_push)

mutual

theorem ElementType.extends_registerIn (type : ElementType) (registry : Registry) :
    registry.Extends (type.registerIn registry) := by
  match type with
  | .vlen element =>
    rw [ElementType.registerIn]
    split
    · exact .refl registry
    · exact (ElementType.extends_registerIn element registry).trans (extends_push _ _)
  | .array element length =>
    rw [ElementType.registerIn]
    split
    · exact .refl registry
    · exact (ElementType.extends_registerIn element registry).trans (extends_push _ _)
  | .compound members size =>
    rw [ElementType.registerIn]
    split
    · exact .refl registry
    · exact (Members.extends_registerIn members registry).trans (extends_push _ _)
  | .number _ | .fixedString _ | .string | .reference _ | .enum _ _ =>
    exact extends_push registry _

theorem Members.extends_registerIn (members : Members) (registry : Registry) :
    registry.Extends (members.registerIn registry) := by
  match members with
  | .nil => exact .refl registry
  | .cons name offset type rest =>
    exact (ElementType.extends_registerIn type registry).trans (Members.extends_registerIn rest _)

end

theorem ElementType.mem_registerIn (type : ElementType) (registry : Registry) :
    type ∈ (type.registerIn registry).types := by
  cases type with
  | vlen | array | compound =>
    rw [ElementType.registerIn]
    split
    · next hmem => simpa using hmem
    · exact mem_push.2 (.inr rfl)
  | number | fixedString | string | reference | enum => exact mem_push.2 (.inr rfl)

theorem Members.mem_registerIn (members : Members) (registry : Registry) :
    ∀ member ∈ members.toList, member.type ∈ (members.registerIn registry).types := by
  cases members with
  | nil => exact fun member h ↦ absurd h List.not_mem_nil
  | cons name offset type rest =>
    intro member hmember
    rcases List.mem_cons.1 hmember with rfl | hmember
    · obtain ⟨more, hmore⟩ := Members.extends_registerIn rest (type.registerIn registry)
      rw [Members.registerIn, hmore]
      exact List.mem_append_left _ (ElementType.mem_registerIn type registry)
    · exact Members.mem_registerIn rest _ member hmember

mutual

/-- Assumes: what is said of a type is said of the types it contains, and a property of registries
is kept when such a type is added after what it contains. Registering such a type keeps the
property. -/
theorem ElementType.registerIn_induction (allowed : ElementType → Prop) (holds : Registry → Prop)
    (hallowed : ∀ type, allowed type → ∀ part ∈ type.parts, allowed part)
    (hpush : ∀ registry type, allowed type → (∀ part ∈ type.parts, part ∈ registry.types) →
      holds registry → holds (registry.push type))
    (type : ElementType) (htype : allowed type) {registry : Registry} (h : holds registry) :
    holds (type.registerIn registry) := by
  match type with
  | .vlen element =>
    have helement := hallowed _ htype element List.mem_cons_self
    rw [ElementType.registerIn]
    split
    · exact h
    · refine hpush _ _ htype (fun part hpart ↦ ?_)
        (element.registerIn_induction allowed holds hallowed hpush helement h)
      obtain rfl := List.mem_singleton.1 hpart
      exact ElementType.mem_registerIn _ registry
  | .array element length =>
    have helement := hallowed _ htype element List.mem_cons_self
    rw [ElementType.registerIn]
    split
    · exact h
    · refine hpush _ _ htype (fun part hpart ↦ ?_)
        (element.registerIn_induction allowed holds hallowed hpush helement h)
      obtain rfl := List.mem_singleton.1 hpart
      exact ElementType.mem_registerIn _ registry
  | .compound members size =>
    have hmembers : ∀ m ∈ members.toList, allowed m.type :=
      fun m hm ↦ hallowed _ htype _ (List.mem_map_of_mem hm)
    rw [ElementType.registerIn]
    split
    · exact h
    · refine hpush _ _ htype (fun part hpart ↦ ?_)
        (members.registerIn_induction allowed holds hallowed hpush hmembers h)
      obtain ⟨member, hmember, rfl⟩ := List.mem_map.1 hpart
      exact Members.mem_registerIn members registry member hmember
  | .number _ | .fixedString _ | .string | .reference _ | .enum _ _ =>
    exact hpush _ _ htype (fun part hpart ↦ absurd hpart List.not_mem_nil) h

theorem Members.registerIn_induction (allowed : ElementType → Prop) (holds : Registry → Prop)
    (hallowed : ∀ type, allowed type → ∀ part ∈ type.parts, allowed part)
    (hpush : ∀ registry type, allowed type → (∀ part ∈ type.parts, part ∈ registry.types) →
      holds registry → holds (registry.push type))
    (members : Members) (hmembers : ∀ m ∈ members.toList, allowed m.type) {registry : Registry}
    (h : holds registry) : holds (members.registerIn registry) := by
  match members with
  | .nil => exact h
  | .cons name offset type rest =>
    obtain ⟨htype, hrest⟩ := List.forall_mem_cons.1 hmembers
    exact rest.registerIn_induction allowed holds hallowed hpush hrest
      (type.registerIn_induction allowed holds hallowed hpush htype h)

end

/-- Registering a type adds types of which the same is said. -/
theorem ElementType.forall_mem_registerIn {allowed : ElementType → Prop}
    (hallowed : ∀ type, allowed type → ∀ part ∈ type.parts, allowed part) {type : ElementType}
    (htype : allowed type) {registry : Registry} (h : ∀ t ∈ registry.types, allowed t) :
    ∀ t ∈ (type.registerIn registry).types, allowed t := by
  refine type.registerIn_induction allowed (fun registry ↦ ∀ t ∈ registry.types, allowed t) hallowed
    (fun registry added hadded _ hall t ht ↦ ?_) htype h
  rcases mem_push.1 ht with ht | rfl
  · exact hall t ht
  · exact hadded

theorem ElementType.WellFormed.of_mem_parts {type part : ElementType} (h : type.WellFormed)
    (hpart : part ∈ type.parts) : part.WellFormed := by
  cases type with
  | vlen =>
    obtain rfl := List.mem_singleton.1 hpart
    exact h
  | array =>
    obtain rfl := List.mem_singleton.1 hpart
    exact h.1
  | compound =>
    obtain ⟨member, hmember, rfl⟩ := List.mem_map.1 hpart
    exact (h.1.of_mem hmember).2
  | number | fixedString | string | reference | enum => exact absurd hpart List.not_mem_nil

/-- Registering a well-formed type adds well-formed types. -/
theorem ElementType.wellFormed_registerIn (type : ElementType) (h : type.WellFormed)
    {registry : Registry} (hall : ∀ t ∈ registry.types, t.WellFormed) :
    ∀ t ∈ (type.registerIn registry).types, t.WellFormed :=
  forall_mem_registerIn (fun _ htype _ hpart ↦ htype.of_mem_parts hpart) h hall

end Stowage
