import Mathlib.Data.List.Nodup
import Stowage.Array.Object
import Stowage.Proofs.Array.Rows

/-!
# Identities of objects

An array shares no object when each identity in it stands at one place (`Object.ids` has no
duplicates). Then an assignment to an identity changes this place and nothing else: the array holds
what it held, but for the part there (`Object.value_assign`). When the new part brings no other
identities with it, nothing is shared afterwards (`Object.ids_assign_sublist`). An object that is
made from a value shares nothing (`Object.nodup_ids_ofValue`).
-/

set_option autoImplicit false

namespace Stowage

namespace Object

variable {object part new item array after : Object} {items objects : List Object} {id i : Nat}
  {path : List Nat}

/-! ### What objects hold -/

theorem values_eq_map (objects : List Object) : values objects = objects.map value := by
  induction objects with
  | nil => rfl
  | cons object rest ih => rw [values, ih, List.map_cons]

theorem idsOf_eq_flatMap (objects : List Object) : idsOf objects = objects.flatMap ids := by
  induction objects with
  | nil => rfl
  | cons object rest ih => rw [idsOf, ih, List.flatMap_cons]

mutual

@[simp] theorem value_ofValue (first : Nat) (v : Value) : (ofValue first v).value = v := by
  cases v with
  | list items => exact congrArg Value.list (values_ofValues _ items)
  | tuple items => exact congrArg Value.tuple (values_ofValues _ items)
  | _ => rfl

theorem values_ofValues (first : Nat) (items : List Value) :
    values (ofValues first items) = items := by
  cases items with
  | nil => rfl
  | cons v rest => rw [ofValues, values, value_ofValue, values_ofValues]

end

mutual

/-- The parts of a new object are numbered one after another. -/
theorem ids_ofValue (first : Nat) (v : Value) :
    (ofValue first v).ids = List.range' first v.changeable := by
  cases v with
  | list items =>
    rw [ofValue, ids, idsOf_ofValues, Value.changeable, Nat.add_comm 1, List.range'_succ]
  | tuple items => exact idsOf_ofValues first items
  | _ => rfl

theorem idsOf_ofValues (first : Nat) (items : List Value) :
    idsOf (ofValues first items) = List.range' first (Value.changeableIn items) := by
  cases items with
  | nil => rfl
  | cons v rest =>
    rw [ofValues, idsOf, ids_ofValue, idsOf_ofValues, Value.changeableIn, List.range'_append_1]

end

/-- Nothing is shared in a new object. -/
theorem nodup_ids_ofValue (first : Nat) (v : Value) : (ofValue first v).ids.Nodup := by
  rw [ids_ofValue]
  exact List.nodup_range'

@[simp] theorem value_withId (id : Nat) (object : Object) :
    (object.withId id).value = object.value := by
  cases object <;> rfl

theorem ids_withId (hid : object.id?.isSome = true) :
    (object.withId id).ids = id :: object.ids.tail := by
  cases object with
  | list | buffer | packed => rfl
  | fixed | tuple => exact absurd hid (by simp [id?])

theorem isMutable_value (object : Object) : object.value.isMutable = object.id?.isSome := by
  cases object with
  | fixed v hfixed => cases v <;> first | rfl | exact absurd hfixed Bool.false_ne_true
  | _ => rfl

theorem children_value (object : Object) : object.children.map value = object.value.children := by
  have hnew (items : List Value) : (items.map (ofValue 0)).map value = items := by
    rw [List.map_map]
    exact (List.map_congr_left fun v _ ↦ value_ofValue 0 v).trans (List.map_id _)
  cases object with
  | list | tuple => exact (values_eq_map _).symm
  | _ => exact hnew _

theorem exists_list_of_value {contents : List Value} (h : object.value = .list contents) :
    ∃ id items, object = list id items := by
  cases object with
  | list id items => exact ⟨id, items, rfl⟩
  | fixed v hfixed =>
    obtain rfl : v = .list contents := h
    exact absurd hfixed Bool.false_ne_true
  | tuple | buffer | packed => exact absurd h (by simp [value])

/-- The part at a place holds the part that the array holds there. -/
theorem value_at? (path : List Nat) (object : Object) :
    (object.at? path).map value = object.value.at? path := by
  induction path generalizing object with
  | nil => rfl
  | cons i path ih =>
    rw [at?, Value.at?, ← children_value, List.getElem?_map, Option.map_bind, Option.bind_map]
    exact congrArg (Option.bind _) (funext ih)

/-! ### Parts with an identity -/

/-- A value that is no array dimension has no parts, and no identity when it is made an object. -/
theorem id?_eq_none_of_at? {v : Value} (hv : v.isArray = false) {first : Nat}
    (hat : (ofValue first v).at? path = some part) : part.id? = none := by
  have hnew : (ofValue first v).id? = none ∧ (ofValue first v).children = [] := by
    cases v with
    | list | tuple | bytes | buffer | packed => exact absurd hv (by simp [Value.isArray])
    | _ => exact ⟨rfl, rfl⟩
  cases path with
  | nil =>
    obtain rfl := Option.some.inj hat
    exact hnew.1
  | cons i path =>
    rw [at?, hnew.2] at hat
    exact absurd hat (by simp)

/-- A part with an identity is reached through the items of lists and tuples. -/
theorem exists_items_of_at? (hat : object.at? (i :: path) = some part)
    (hid : part.id? = some id) :
    ∃ items item, ((∃ other, object = list other items) ∨ object = tuple items) ∧
      items[i]? = some item ∧ item.at? path = some part := by
  obtain ⟨item, hitem, hinner⟩ := Option.bind_eq_some_iff.1 hat
  have hnone (hsequence : object.value.isSequence = false)
      (hchildren : object.children = object.value.children.map (ofValue 0)) : False := by
    rw [hchildren] at hitem
    obtain ⟨v, hv, rfl⟩ := List.mem_map.1 (List.mem_of_getElem? hitem)
    have hflat : v.isArray = false := Bool.eq_false_iff.2 fun harray ↦
      Bool.false_ne_true (hsequence.symm.trans (Value.isSequence_of_mem_children hv harray))
    exact absurd (hid.symm.trans (id?_eq_none_of_at? hflat hinner)) (by simp)
  cases object with
  | list other items => exact ⟨items, item, .inl ⟨other, rfl⟩, hitem, hinner⟩
  | tuple items => exact ⟨items, item, .inr rfl, hitem, hinner⟩
  | fixed v hfixed =>
    have hsequence : v.isSequence = false := by
      cases v with
      | list | tuple => exact absurd hfixed Bool.false_ne_true
      | _ => rfl
    exact (hnone hsequence rfl).elim
  | buffer | packed => exact (hnone rfl rfl).elim

theorem mem_ids_of_id? (hid : object.id? = some id) : id ∈ object.ids := by
  cases object with
  | list | buffer | packed =>
    obtain rfl := Option.some.inj hid
    exact List.mem_cons_self
  | fixed | tuple => exact absurd hid (by simp [id?])

theorem mem_ids_of_at? (hat : object.at? path = some part) (hid : part.id? = some id) :
    id ∈ object.ids := by
  induction path generalizing object with
  | nil =>
    obtain rfl := Option.some.inj hat
    exact mem_ids_of_id? hid
  | cons i path ih =>
    obtain ⟨items, item, hobject, hitem, hinner⟩ := exists_items_of_at? hat hid
    have hmem : id ∈ idsOf items := by
      rw [idsOf_eq_flatMap]
      exact List.mem_flatMap.2 ⟨item, List.mem_of_getElem? hitem, ih hinner⟩
    rcases hobject with ⟨other, rfl⟩ | rfl
    · exact List.mem_cons_of_mem other hmem
    · exact hmem

/-! ### Assignment -/

mutual

/-- Without the identity in it, an object stays as it is. -/
theorem assign_of_not_mem (new : Object) (object : Object) (hnot : id ∉ object.ids) :
    object.assign id new = object := by
  cases object with
  | fixed => rfl
  | buffer other | packed other =>
    have hne : other ≠ id := fun h ↦ hnot (h ▸ List.mem_cons_self)
    rw [assign, if_neg hne]
  | list other items =>
    have hne : other ≠ id := fun h ↦ hnot (h ▸ List.mem_cons_self)
    rw [assign, if_neg hne, assignAll_of_not_mem new items (mt (List.mem_cons_of_mem other) hnot)]
  | tuple items => rw [assign, assignAll_of_not_mem new items hnot]

theorem assignAll_of_not_mem (new : Object) (objects : List Object) (hnot : id ∉ idsOf objects) :
    assignAll id objects new = objects := by
  cases objects with
  | nil => rfl
  | cons object rest =>
    rw [assignAll, assign_of_not_mem new object (mt (List.mem_append_left _) hnot),
      assignAll_of_not_mem new rest (mt (List.mem_append_right _) hnot)]

end

/-- The object with the identity becomes the new one. -/
theorem assign_of_id? (new : Object) (hid : object.id? = some id) :
    object.assign id new = new := by
  cases object with
  | list | buffer | packed =>
    obtain rfl := Option.some.inj hid
    rw [assign, if_pos rfl]
  | fixed | tuple => exact absurd hid (by simp [id?])

/-- Where nothing is shared, the identity is assigned to in one item only. -/
theorem assignAll_eq_set (new : Object) (hnodup : (idsOf items).Nodup)
    (hitem : items[i]? = some item) (hmem : id ∈ item.ids) :
    assignAll id items new = items.set i (item.assign id new) := by
  induction items generalizing i with
  | nil => exact absurd hitem (by simp)
  | cons object rest ih =>
    obtain ⟨_, hrest, hapart⟩ := List.nodup_append'.1 hnodup
    cases i with
    | zero =>
      obtain rfl := Option.some.inj hitem
      rw [assignAll, assignAll_of_not_mem new rest (hapart hmem), List.set_cons_zero]
    | succ i =>
      have hinside : id ∈ idsOf rest := by
        rw [idsOf_eq_flatMap]
        exact List.mem_flatMap.2 ⟨item, List.mem_of_getElem? hitem, hmem⟩
      rw [assignAll, assign_of_not_mem new object fun h ↦ hapart h hinside, ih hrest hitem,
        List.set_cons_succ]

/-- Assumes: an array without shared objects, and a part with an identity that is reached through an
item. Assigning to the identity assigns to it in this item. -/
theorem assign_cons (new : Object) (hnodup : object.ids.Nodup)
    (hat : object.at? (i :: path) = some part) (hid : part.id? = some id) :
    ∃ items item, items[i]? = some item ∧ item.at? path = some part ∧ item.ids.Nodup ∧
      ((∃ other, object = list other items ∧
          object.assign id new = list other (items.set i (item.assign id new))) ∨
        object = tuple items ∧
          object.assign id new = tuple (items.set i (item.assign id new))) := by
  obtain ⟨items, item, hobject, hitem, hinner⟩ := exists_items_of_at? hat hid
  have hmem : id ∈ item.ids := mem_ids_of_at? hinner hid
  have hitems : (idsOf items).Nodup := by
    rcases hobject with ⟨other, rfl⟩ | rfl
    · exact hnodup.of_cons
    · exact hnodup
  have hset := assignAll_eq_set new hitems hitem hmem
  refine ⟨items, item, hitem, hinner, ?_, ?_⟩
  · rw [idsOf_eq_flatMap] at hitems
    exact (List.nodup_flatMap.1 hitems).1 item (List.mem_of_getElem? hitem)
  · rcases hobject with ⟨other, rfl⟩ | rfl
    · have hinside : id ∈ idsOf items := by
        rw [idsOf_eq_flatMap]
        exact List.mem_flatMap.2 ⟨item, List.mem_of_getElem? hitem, hmem⟩
      have hne : other ≠ id := fun h ↦ (List.nodup_cons.1 hnodup).1 (h ▸ hinside)
      exact .inl ⟨other, rfl, by rw [assign, if_neg hne, hset]⟩
    · exact .inr ⟨rfl, by rw [assign, hset]⟩

/-- After an assignment to an object that stands at one place, the array holds the new contents at
this place, and elsewhere what it held. -/
theorem value_assign (new : Object) (hnodup : object.ids.Nodup)
    (hat : object.at? path = some part) (hid : part.id? = some id) :
    (object.assign id new).value = object.value.putAt path new.value := by
  induction path generalizing object with
  | nil =>
    obtain rfl := Option.some.inj hat
    rw [assign_of_id? new hid]
    rfl
  | cons i path ih =>
    obtain ⟨items, item, hitem, hinner, hunshared, hassign⟩ := assign_cons new hnodup hat hid
    have hvalues : values (items.set i (item.assign id new)) =
        (values items).modify i fun v ↦ v.putAt path new.value := by
      rw [values_eq_map, values_eq_map, List.map_set, ih hunshared hinner,
        List.modify_eq_set_getElem?, List.getElem?_map, hitem]
      rfl
    rcases hassign with ⟨other, rfl, hassign⟩ | ⟨rfl, hassign⟩
    · rw [hassign, value, hvalues]
      rfl
    · rw [hassign, value, hvalues]
      rfl

theorem idsOf_set_sublist (hnew : ∀ item, items[i]? = some item → new.ids.Sublist item.ids) :
    (idsOf (items.set i new)).Sublist (idsOf items) := by
  induction items generalizing i with
  | nil => exact List.Sublist.refl _
  | cons object rest ih =>
    cases i with
    | zero => exact (hnew object rfl).append_right _
    | succ i => exact (ih hnew).append_left _

/-- An assignment of an object with no other identities than the former one brings none into the
array. -/
theorem ids_assign_sublist (hnodup : object.ids.Nodup) (hat : object.at? path = some part)
    (hid : part.id? = some id) (hnew : new.ids.Sublist part.ids) :
    (object.assign id new).ids.Sublist object.ids := by
  induction path generalizing object with
  | nil =>
    obtain rfl := Option.some.inj hat
    rwa [assign_of_id? new hid]
  | cons i path ih =>
    obtain ⟨items, item, hitem, hinner, hunshared, hassign⟩ := assign_cons new hnodup hat hid
    have hitems : (idsOf (items.set i (item.assign id new))).Sublist (idsOf items) := by
      refine idsOf_set_sublist fun other hother ↦ ?_
      obtain rfl := Option.some.inj (hitem.symm.trans hother)
      exact ih hunshared hinner
    rcases hassign with ⟨other, rfl, hassign⟩ | ⟨rfl, hassign⟩
    · rw [hassign]
      exact hitems.cons_cons other
    · rwa [hassign]

end Object

end Stowage
