import Stowage.Proofs.Registry.Classification

/-!
# Registries that are closed

A type is registered after the types it contains, so the numbers of these are smaller than its own
(`Closed.exists_idOf`). This is kept whatever is registered (`ElementType.closed_registerIn`). So a
chain of contained types ends after as many steps as there are types, and a registered type that can
be classified always is, as itself (`Closed.classify_eq_ok`).
-/

set_option autoImplicit false

namespace Stowage

namespace Registry

/-- Every type stands after the types it contains. -/
def Closed (registry : Registry) : Prop :=
  ∀ (i : Nat) (type : ElementType), registry.types[i]? = some type →
    ∀ part ∈ type.parts, part ∈ registry.types.take i

variable {registry : Registry} {type : ElementType} {id : Int}

theorem closed_empty : empty.Closed := by
  intro i type h
  exact absurd h (by simp [empty])

/-- A type is added after what it contains. -/
theorem Closed.push (h : registry.Closed) (hparts : ∀ part ∈ type.parts, part ∈ registry.types) :
    (registry.push type).Closed := by
  unfold Registry.push
  split
  · exact h
  · intro i added hadded part hpart
    dsimp only at hadded ⊢
    by_cases hi : i < registry.types.length
    · rw [List.getElem?_append_left hi] at hadded
      rw [List.take_append_of_le_length (Nat.le_of_lt hi)]
      exact h i added hadded part hpart
    · have hlast : i = registry.types.length := by
        have hlt := (List.getElem?_eq_some_iff.1 hadded).1
        rw [List.length_append, List.length_singleton] at hlt
        omega
      subst hlast
      rw [List.getElem?_concat_length] at hadded
      obtain rfl := Option.some.inj hadded
      rw [List.take_left]
      exact hparts part hpart

end Registry

/-- Registering a type keeps a registry closed. -/
theorem ElementType.closed_registerIn (type : ElementType) {registry : Registry}
    (h : registry.Closed) : (type.registerIn registry).Closed :=
  type.registerIn_induction (fun _ ↦ True) Registry.Closed (fun _ _ _ _ ↦ trivial)
    (fun _ _ _ hparts hclosed ↦ hclosed.push hparts) trivial h

namespace Registry

variable {registry : Registry} {type part : ElementType} {id : Int}

/-- What a registered type contains has a smaller number. -/
theorem Closed.exists_idOf (h : registry.Closed) (htype : registry.typeOf id = .ok type)
    (hpart : part ∈ type.parts) :
    ∃ k : Int, registry.idOf part = .ok k ∧ registry.typeOf k = .ok part ∧ k < id := by
  obtain ⟨hpos, hfound⟩ := typeOf_eq_ok.1 htype
  obtain ⟨j, hj, hsame⟩ := List.mem_iff_getElem.1 (h _ _ hfound part hpart)
  rw [List.length_take] at hj
  rw [List.getElem_take] at hsame
  have hmem : part ∈ registry.types := List.mem_of_mem_take (h _ _ hfound part hpart)
  obtain ⟨first, hfirst⟩ := Option.isSome_iff_exists.1 (List.isSome_idxOf?.2 hmem)
  obtain ⟨hlt, _, hleast⟩ := List.idxOf?_eq_some_iff.1 hfirst
  have hle : first ≤ j := Nat.not_lt.1 fun hlt ↦ hleast j hlt hsame
  have hid : registry.idOf part = .ok ((first + 1 : Nat) : Int) := by
    rw [idOf, idOf?, hfirst]
    rfl
  exact ⟨_, hid, typeOf_of_idOf hid, by omega⟩

/-- Assumes: a closed registry, a number that stands for a classifiable type, and a bound that is
not smaller. Classifying the number within the bound gives something. -/
theorem Closed.exists_classifyWithin (h : registry.Closed) (htype : registry.typeOf id = .ok type)
    (hclassifiable : type.Classifiable) {bound : Nat} (hbound : id ≤ bound) :
    ∃ found, registry.catalogue.classifyWithin bound id = .ok found := by
  induction bound generalizing id type with
  | zero =>
    have hpos := (typeOf_eq_ok.1 htype).1
    omega
  | succ bound ih =>
    have hinner {part : ElementType} (hpart : part ∈ type.parts)
        (hpartClassifiable : part.Classifiable) :
        ∃ k found, registry.idOf part = .ok k ∧
          registry.catalogue.classifyWithin bound k = .ok found := by
      obtain ⟨k, hk, hkType, hlt⟩ := h.exists_idOf htype hpart
      obtain ⟨found, hfound⟩ := ih hkType hpartClassifiable (by omega)
      exact ⟨k, found, hk, hfound⟩
    have hclass : registry.catalogue.classOf id = .ok (some type.typeClass) := by
      simp [catalogue, htype, Except.map]
    have hsize : registry.catalogue.sizeOf id = .ok type.size := by
      simp [catalogue, htype, Except.map]
    rw [Catalogue.classifyWithin, hclass, hsize, Outcome.ok_bind, Outcome.ok_bind]
    cases type with
    | number type => cases type <;> exact ⟨_, rfl⟩
    | fixedString width =>
      have hfixed : registry.catalogue.isVariableString id = .ok false := by
        simp [catalogue, htype, Except.map]
      dsimp only [ElementType.typeClass]
      rw [hfixed]
      exact ⟨_, rfl⟩
    | string =>
      have hstring : registry.catalogue.isVariableString id = .ok true := by
        simp [catalogue, htype, Except.map]
      dsimp only [ElementType.typeClass]
      rw [hstring]
      exact ⟨_, rfl⟩
    | vlen element =>
      have hvlen : element.Classifiable := hclassifiable
      obtain ⟨k, found, hk, hfound⟩ := hinner List.mem_cons_self hvlen
      have helement : registry.catalogue.elementOf id = .ok k := by
        simp [catalogue, elementOf, htype, hk]
      dsimp only [ElementType.typeClass]
      rw [helement, Outcome.ok_bind, hfound]
      exact ⟨_, rfl⟩
    | array element length =>
      obtain ⟨k, found, hk, hfound⟩ := hinner List.mem_cons_self hclassifiable
      have helement : registry.catalogue.elementOf id = .ok k := by
        simp [catalogue, elementOf, htype, hk]
      have hdimensions : registry.catalogue.dimensionsOf id = .ok [length] := by
        simp [catalogue, dimensionsOf, htype]
      dsimp only [ElementType.typeClass]
      rw [hdimensions, Outcome.ok_bind, helement]
      dsimp only
      rw [Outcome.ok_bind, hfound]
      exact ⟨_, rfl⟩
    | reference width => exact ⟨_, rfl⟩
    | enum backing constants =>
      have hinteger : NumberType.integerOfSize? (ElementType.enum backing constants).size =
          some backing := NumberType.integerOfSize?_size backing hclassifiable
      have hcount : registry.catalogue.memberCount id = .ok constants.length := by
        simp [catalogue, memberCount, htype]
      dsimp only [ElementType.typeClass]
      rw [hinteger]
      dsimp only
      rw [hcount, Outcome.ok_bind]
      refine ⟨_, Outcome.bind_eq_ok.2 ⟨_, (Outcome.exists_mapM_eq_ok_iff.2 ?_).choose_spec, rfl⟩⟩
      intro i hi
      have hlt := List.mem_range.1 hi
      rw [memberName_enum htype hlt, memberValue_enum htype hlt]
      exact ⟨_, rfl⟩
    | compound members size =>
      have hcount : registry.catalogue.memberCount id = .ok members.toList.length := by
        simp [catalogue, memberCount, htype]
      dsimp only [ElementType.typeClass]
      rw [hcount, Outcome.ok_bind]
      refine ⟨_, Outcome.bind_eq_ok.2 ⟨_, (Outcome.exists_mapM_eq_ok_iff.2 ?_).choose_spec, rfl⟩⟩
      intro i hi
      have hlt := List.mem_range.1 hi
      have hmem := List.getElem_mem hlt
      obtain ⟨k, found, hk, hfound⟩ := hinner (List.mem_map_of_mem hmem)
        (hclassifiable.1.of_mem hmem)
      rw [memberName_compound htype hlt, memberOffset_compound htype hlt,
        memberType_compound htype hlt, hk, Outcome.ok_bind, Outcome.ok_bind, Outcome.ok_bind,
        hfound]
      exact ⟨_, rfl⟩

/-- Assumes: a closed registry. A number that stands for a classifiable type is classified as this
type within every bound that is not smaller. -/
theorem Closed.classifyWithin_eq_ok (h : registry.Closed) (htype : registry.typeOf id = .ok type)
    (hclassifiable : type.Classifiable) {bound : Nat} (hbound : id ≤ bound) :
    registry.catalogue.classifyWithin bound id = .ok type := by
  obtain ⟨found, hfound⟩ := h.exists_classifyWithin htype hclassifiable hbound
  obtain rfl := eq_of_classifyWithin htype hclassifiable _ hfound
  exact hfound

theorem Closed.classify_eq_ok (h : registry.Closed) (htype : registry.typeOf id = .ok type)
    (hclassifiable : type.Classifiable) : registry.catalogue.classify id = .ok type := by
  obtain ⟨hpos, hfound⟩ := typeOf_eq_ok.1 htype
  have hlt := (List.getElem?_eq_some_iff.1 hfound).1
  refine h.classifyWithin_eq_ok htype hclassifiable ?_
  change id ≤ ((registry.types.length + 1 : Nat) : Int)
  omega

theorem Closed.sequenceElement_eq_ok (h : registry.Closed) {element : ElementType}
    (htype : registry.typeOf id = .ok (.vlen element))
    (hwellFormed : (ElementType.vlen element).WellFormed) :
    registry.catalogue.sequenceElement id = .ok element := by
  rw [Catalogue.sequenceElement, h.classify_eq_ok htype hwellFormed.classifiable]
  rfl

theorem Closed.arrayElement_eq_ok (h : registry.Closed) {element : ElementType} {length : Int}
    (htype : registry.typeOf id = .ok (.array element length))
    (hwellFormed : (ElementType.array element length).WellFormed) :
    registry.catalogue.arrayElement id = .ok (element, length) := by
  rw [Catalogue.arrayElement, h.classify_eq_ok htype hwellFormed.classifiable]
  rfl

end Registry

end Stowage
