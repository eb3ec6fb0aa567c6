import Stowage.Proofs.Action
import Stowage.Proofs.Descriptor.Soundness
import Stowage.Proofs.Registry.Closure
import Stowage.Store.Basic

/-!
# Numbers of registered types

A registry holds no type twice, so a number stands for one type and a type has one number
(`Registry.idOf_eq_ok_iff`). Together with the order in which types are registered this makes the
answers of the registry agree with each other (`Registry.Agrees`): what a type contains is found
under a smaller number, and the answers about a number, put together, are its type.

The registry of a library agrees after any requests to number types, given directly or described by
text, and a number stands for the same type ever after (`Store.agrees_afterRequests`).
-/

set_option autoImplicit false

namespace Stowage

theorem ElementType.Classifiable.of_mem_parts {type part : ElementType} (h : type.Classifiable)
    (hpart : part ∈ type.parts) : part.Classifiable := by
  cases type with
  | vlen | array =>
    obtain rfl := List.mem_singleton.1 hpart
    exact h
  | compound =>
    obtain ⟨member, hmember, rfl⟩ := List.mem_map.1 hpart
    exact h.1.of_mem hmember
  | number | fixedString | string | reference | enum => exact absurd hpart List.not_mem_nil

namespace Registry

variable {registry : Registry} {type : ElementType} {id : Int}

theorem nodup_push (h : registry.types.Nodup) : (registry.push type).types.Nodup := by
  unfold push
  split
  · exact h
  · next hnot =>
    rw [List.contains_iff_mem] at hnot
    exact List.nodup_append.2 ⟨h, List.nodup_singleton type,
      fun a ha b hb hab ↦ hnot (List.mem_singleton.1 hb ▸ hab ▸ ha)⟩

/-- Assumes: no type is registered twice. A type has the number that stands for it. -/
theorem idOf_eq_ok_iff (h : registry.types.Nodup) :
    registry.idOf type = .ok id ↔ registry.typeOf id = .ok type := by
  refine ⟨typeOf_of_idOf, fun htype ↦ ?_⟩
  obtain ⟨hpos, hfound⟩ := typeOf_eq_ok.1 htype
  obtain ⟨hlt, hget⟩ := List.getElem?_eq_some_iff.1 hfound
  have hindex : registry.types.idxOf? type = some (id - 1).toNat := by
    refine List.idxOf?_eq_some_iff.2 ⟨hlt, hget, fun j hj hsame ↦ ?_⟩
    exact Nat.ne_of_lt hj ((h.getElem_inj_iff).1 (hsame.trans hget.symm))
  rw [idOf, idOf?, hindex]
  exact congrArg Except.ok (by omega : (((id - 1).toNat + 1 : Nat) : Int) = id)

theorem typeOf_eq_ok_iff_bounds :
    (∃ type, registry.typeOf id = .ok type) ↔ 0 < id ∧ id ≤ registry.types.length := by
  constructor
  · rintro ⟨type, htype⟩
    obtain ⟨hpos, hfound⟩ := typeOf_eq_ok.1 htype
    have hlt := (List.getElem?_eq_some_iff.1 hfound).1
    exact ⟨hpos, by omega⟩
  · rintro ⟨hpos, hle⟩
    have hlt : (id - 1).toNat < registry.types.length := by omega
    exact ⟨_, typeOf_eq_ok.2 ⟨hpos, List.getElem?_eq_getElem hlt⟩⟩

theorem exists_idOf_of_mem (h : type ∈ registry.types) :
    ∃ id : Nat, registry.idOf? type = some id ∧ registry.idOf type = .ok id := by
  obtain ⟨index, hindex⟩ := Option.isSome_iff_exists.1 (List.isSome_idxOf?.2 h)
  refine ⟨index + 1, ?_, ?_⟩
  · rw [idOf?, hindex]
    rfl
  · rw [idOf, idOf?, hindex]
    rfl

/-- The answers of a registry agree with each other. -/
structure Agrees (registry : Registry) : Prop where
  /-- The numbers that stand for a type are those from one to the number of types. -/
  issued : ∀ id, (∃ type, registry.typeOf id = .ok type) ↔
    0 < id ∧ id ≤ registry.types.length
  /-- The number of a type is the one that stands for it. -/
  idOf_iff : ∀ type id, registry.idOf type = .ok id ↔ registry.typeOf id = .ok type
  /-- Registered types are equal when their numbers are. -/
  idOf_inj : ∀ first ∈ registry.types, ∀ second ∈ registry.types,
    registry.idOf first = registry.idOf second ↔ first = second
  /-- What a type contains is registered under a smaller number. -/
  parts : ∀ id type, registry.typeOf id = .ok type → ∀ part ∈ type.parts,
    ∃ partId, registry.idOf part = .ok partId ∧ 0 < partId ∧ partId < id
  /-- The elements of a sequence or an array are found, under a smaller number. -/
  elementOf : ∀ id type element, registry.typeOf id = .ok type →
    (type = .vlen element ∨ ∃ length, type = .array element length) →
      ∃ partId, registry.elementOf id = .ok partId ∧ registry.typeOf partId = .ok element ∧
        partId < id
  /-- Each member of a compound is found, under a smaller number. -/
  memberType : ∀ id members size, registry.typeOf id = .ok (.compound members size) →
    ∀ index member, pick members.toList index = .ok member →
      ∃ partId, registry.memberType id index = .ok partId ∧
        registry.typeOf partId = .ok member.type ∧ partId < id
  /-- The answers about a number, put together, are its type. -/
  classify : ∀ id type, registry.typeOf id = .ok type →
    registry.catalogue.classify id = .ok type
  /-- A chain of contained types that starts at a number is not longer than the number. -/
  classifyWithin : ∀ id type, registry.typeOf id = .ok type → ∀ bound : Nat, id ≤ bound →
    registry.catalogue.classifyWithin bound id = .ok type

theorem mem_of_pick {α : Type} {items : List α} {index : Int} {item : α}
    (h : pick items index = .ok item) : item ∈ items := by
  unfold pick at h
  dsimp only at h
  generalize (if index < 0 then (items.length : Int) + index else index) = position at h
  split at h
  · exact absurd h (by simp)
  · split at h
    · next found hfound => exact Except.ok.inj h ▸ List.mem_of_getElem? hfound
    · exact absurd h (by simp)

/-- Assumes: no type is registered twice, each after what it contains, and all can be classified. -/
theorem Closed.agrees (hclosed : registry.Closed) (hnodup : registry.types.Nodup)
    (hclassifiable : ∀ t ∈ registry.types, t.Classifiable) : registry.Agrees where
  issued id := typeOf_eq_ok_iff_bounds
  idOf_iff type id := idOf_eq_ok_iff hnodup
  idOf_inj first hfirst second _ := by
    refine ⟨fun hsame ↦ ?_, congrArg _⟩
    obtain ⟨id, _, hid⟩ := exists_idOf_of_mem hfirst
    exact Except.ok.inj ((typeOf_of_idOf hid).symm.trans (typeOf_of_idOf (hsame ▸ hid)))
  parts id type htype part hpart := by
    obtain ⟨k, hk, hkType, hlt⟩ := hclosed.exists_idOf htype hpart
    exact ⟨k, hk, (typeOf_eq_ok.1 hkType).1, hlt⟩
  elementOf id type element htype hsequence := by
    have hpart : element ∈ type.parts := by
      rcases hsequence with rfl | ⟨length, rfl⟩ <;> exact List.mem_cons_self
    obtain ⟨k, hk, hkType, hlt⟩ := hclosed.exists_idOf htype hpart
    refine ⟨k, ?_, hkType, hlt⟩
    rcases hsequence with rfl | ⟨length, rfl⟩ <;> rw [Registry.elementOf, htype] <;> exact hk
  memberType id members size htype index member hmember := by
    have hpart : member.type ∈ (ElementType.compound members size).parts :=
      List.mem_map_of_mem (mem_of_pick hmember)
    obtain ⟨k, hk, hkType, hlt⟩ := hclosed.exists_idOf htype hpart
    refine ⟨k, ?_, hkType, hlt⟩
    rw [Registry.memberType, Registry.member, htype, Outcome.ok_bind]
    dsimp only
    rw [hmember]
    exact hk
  classify id type htype := hclosed.classify_eq_ok htype (hclassifiable _ (mem_of_typeOf htype))
  classifyWithin id type htype bound hbound :=
    hclosed.classifyWithin_eq_ok htype (hclassifiable _ (mem_of_typeOf htype)) hbound

/-- A registry that any requests may have led to. -/
structure Consistent (registry : Registry) : Prop where
  /-- Types are registered after what they contain. -/
  closed : registry.Closed
  /-- No type is registered twice. -/
  nodup : registry.types.Nodup
  /-- Every type can be classified. -/
  classifiable : ∀ t ∈ registry.types, t.Classifiable

theorem consistent_empty : empty.Consistent where
  closed := closed_empty
  nodup := .nil
  classifiable := fun _ h ↦ absurd h List.not_mem_nil

theorem Consistent.registerIn (h : registry.Consistent) (htype : type.Classifiable) :
    (type.registerIn registry).Consistent where
  closed := type.closed_registerIn h.closed
  nodup := type.registerIn_induction (fun _ ↦ True) (fun registry ↦ registry.types.Nodup)
    (fun _ _ _ _ ↦ trivial) (fun _ _ _ _ hnodup ↦ nodup_push hnodup) trivial h.nodup
  classifiable := ElementType.forall_mem_registerIn (fun _ h _ hpart ↦ h.of_mem_parts hpart) htype
    h.classifiable

end Registry

namespace Store

/-- Something that asks for the number of a type. -/
inductive Request where
  /-- The type is given. -/
  | given (type : ElementType)
  /-- The type is described by text. -/
  | written (text : String)

namespace Request

/-- The type that a request is about, if there is one. -/
def described : Request → Except Fault ElementType
  | .given type => .ok type
  | .written text => Descriptor.parse text

/-- The number of the type that a request is about. -/
def action : Request → Action Store Nat
  | .given type => Store.register type
  | .written text => Store.registerText text

/-- A type that is given can be classified. -/
def Classifiable : Request → Prop
  | .given type => type.Classifiable
  | .written _ => True

variable {request : Request} {store : Store} {type : ElementType} {fault : Fault}

theorem Classifiable.described (h : request.Classifiable) (htype : request.described = .ok type) :
    type.Classifiable := by
  cases request with
  | given _ => exact Except.ok.inj htype ▸ h
  | written _ => exact (Descriptor.wellFormed_of_parse htype).classifiable

theorem run_action_ok (htype : request.described = .ok type) (store : Store) :
    request.action.run store = (Store.register type).run store := by
  cases request with
  | given _ => exact Except.ok.inj htype ▸ rfl
  | written _ => exact Action.run_ofExcept_bind_ok htype _ store

theorem run_action_error (hfault : request.described = .error fault) (store : Store) :
    request.action.run store = (.error fault, store) := by
  cases request with
  | given _ => exact absurd hfault (by simp [Request.described])
  | written _ => exact Action.run_ofExcept_bind_error hfault _ store

/-- A request that is about a type is answered with its number. -/
theorem exists_number (htype : request.described = .ok type) (store : Store) :
    ∃ id : Nat, (request.action.run store).1 = .ok id ∧
      (request.action.run store).2.registry.idOf type = .ok (id : Int) := by
  obtain ⟨id, hsome, hid⟩ := Registry.exists_idOf_of_mem (type.mem_registerIn store.registry)
  refine ⟨id, ?_, ?_⟩ <;> rw [run_action_ok htype]
  · change Except.ok ((Registry.idOf? (type.registerIn store.registry) type).getD 0) = .ok id
    rw [hsome]
    rfl
  · exact hid

/-- A request only adds types. -/
theorem extends_action (request : Request) (store : Store) :
    store.registry.Extends (request.action.run store).2.registry := by
  rcases hdescribed : request.described with fault | type
  · rw [run_action_error hdescribed]
    exact .refl _
  · rw [run_action_ok hdescribed]
    exact type.extends_registerIn store.registry

theorem consistent_action (h : request.Classifiable) (hstore : store.registry.Consistent) :
    (request.action.run store).2.registry.Consistent := by
  rcases hdescribed : request.described with fault | type
  · rw [run_action_error hdescribed]
    exact hstore
  · rw [run_action_ok hdescribed]
    exact hstore.registerIn (h.described hdescribed)

end Request

/-- The library after requests, whether they are answered or refused. -/
def afterRequests (requests : List Request) (store : Store) : Store :=
  requests.foldl (fun store request ↦ (request.action.run store).2) store

theorem consistent_afterRequests {requests : List Request} (h : ∀ r ∈ requests, r.Classifiable)
    {store : Store} (hstore : store.registry.Consistent) :
    (store.afterRequests requests).registry.Consistent := by
  induction requests generalizing store with
  | nil => exact hstore
  | cons request rest ih =>
    obtain ⟨hrequest, hrest⟩ := List.forall_mem_cons.1 h
    exact ih hrest (Request.consistent_action hrequest hstore)

theorem extends_afterRequests (requests : List Request) (store : Store) :
    store.registry.Extends (store.afterRequests requests).registry := by
  induction requests generalizing store with
  | nil => exact .refl _
  | cons request rest ih => exact (request.extends_action store).trans (ih _)

/-- Assumes: the types that are given can be classified. After any requests to a new library its
answers agree, the numbers that stood for types before still stand for them, and a request that is
about a type is answered with its number. -/
theorem agrees_afterRequests (capacity : Nat) (earlier later : List Request)
    (h : ∀ r ∈ earlier ++ later, r.Classifiable) :
    let before := (empty capacity).afterRequests earlier
    let after := before.afterRequests later
    after.registry.Agrees ∧
      (∀ type id, before.registry.idOf type = .ok id → after.registry.idOf type = .ok id) ∧
      ∀ (request : Request) type, request.described = .ok type → ∃ id : Nat,
        (request.action.run before).1 = .ok id ∧
          (request.action.run before).2.registry.idOf type = .ok (id : Int) := by
  intro before after
  obtain ⟨hearlier, hlater⟩ := List.forall_mem_append.1 h
  have hbefore : before.registry.Consistent :=
    consistent_afterRequests hearlier Registry.consistent_empty
  have hafter : after.registry.Consistent := consistent_afterRequests hlater hbefore
  refine ⟨hafter.closed.agrees hafter.nodup hafter.classifiable, fun type id hid ↦ ?_,
    fun request type htype ↦ request.exists_number htype before⟩
  have htype := (Registry.idOf_eq_ok_iff hbefore.nodup).1 hid
  exact (Registry.idOf_eq_ok_iff hafter.nodup).2
    (Registry.typeOf_of_extends (extends_afterRequests later before) htype)

theorem agrees_afterRequests_shared :
    (∀ r ∈ [Request.written "vlen<compound \x7b id: int32, tag: string(4) \x7d>",
        .written "int128"] ++ [.given (.array (.array (.vlen (.number .int32)) 2) 3),
        .given (.compound (.ofList [⟨"mode", 4, .enum .int8 [("off", 0), ("on", 7)]⟩]) 16)],
      r.Classifiable) ∧
    let before := (empty 64).afterRequests
      [.written "vlen<compound \x7b id: int32, tag: string(4) \x7d>", .written "int128"]
    let after := before.afterRequests [.given (.array (.array (.vlen (.number .int32)) 2) 3),
      .given (.compound (.ofList [⟨"mode", 4, .enum .int8 [("off", 0), ("on", 7)]⟩]) 16)]
    after.registry.Agrees ∧
      (∀ type id, before.registry.idOf type = .ok id → after.registry.idOf type = .ok id) ∧
      ∀ (request : Request) type, request.described = .ok type → ∃ id : Nat,
        (request.action.run before).1 = .ok id ∧
          (request.action.run before).2.registry.idOf type = .ok (id : Int) := by
  have h : ∀ r ∈ [Request.written "vlen<compound \x7b id: int32, tag: string(4) \x7d>",
      .written "int128"] ++ [.given (.array (.array (.vlen (.number .int32)) 2) 3),
        .given (.compound (.ofList [⟨"mode", 4, .enum .int8 [("off", 0), ("on", 7)]⟩]) 16)],
      r.Classifiable := by
    simp [Request.Classifiable, ElementType.Classifiable, Members.Classifiable, Members.ofList,
      NumberType.isInteger, NumberType.isFloat]
  exact ⟨h, agrees_afterRequests 64 _ _ h⟩

end Store

end Stowage
