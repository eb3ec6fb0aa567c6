import Stowage.Proofs.Payloads.Positions

/-!
# Values of zero bytes

Where nothing was written an element consists of zero bytes. It stands for a value of its own:
zero numbers, empty text, a sequence without items, and records and arrays of such values
(`ElementType.zeroValue`, `ElementType.LooksLike.viewed_of_isZero`). This is what an array of values
is read back as when the array was missing (`ElementType.placed`).
-/

set_option autoImplicit false

namespace Stowage

mutual

/-- The value that an element of zero bytes stands for. -/
def ElementType.zeroValue : ElementType → Value
  | .number type => type.default
  | .enum backing _ => backing.default
  | .fixedString _ | .string => .text ""
  | .reference width => .bytes (Bytes.zeros width.toNat)
  | .vlen _ => .list []
  | .array element length => .list (List.replicate length.toNat element.zeroValue)
  | .compound members _ => .tuple members.zeroValues

/-- The values that members of zero bytes stand for. -/
def Members.zeroValues : Members → List Value
  | .nil => []
  | .cons _ _ type rest => type.zeroValue :: rest.zeroValues

end

/-- What becomes of a value that is written in the place of zero bytes and read back: a missing one
leaves the zeros. -/
def ElementType.placed (type : ElementType) : Value → Value
  | .null => type.zeroValue
  | value => type.normalised value

theorem ElementType.placed_of_ne_null (type : ElementType) {value : Value} (h : value ≠ .null) :
    type.placed value = type.normalised value := by
  cases value with
  | null => exact absurd rfl h
  | _ => rfl

theorem NumberType.load_of_isZero (type : NumberType) {bytes : Bytes} (h : bytes.IsZero) :
    type.load bytes = type.default := by
  have hzero := h.toNat_eq
  cases type <;> simp only [load, hzero] <;> rfl

theorem Bytes.IsZero.untilNul_eq {bytes : Bytes} (h : bytes.IsZero) : untilNul bytes = [] := by
  cases bytes with
  | nil => rfl
  | cons b rest =>
    have hb := h b List.mem_cons_self
    rw [hb]
    rfl

theorem textOf_of_isZero {bytes : Bytes} (h : bytes.IsZero) : textOf bytes = .text "" := by
  rw [textOf, h.untilNul_eq]
  rfl

variable {heap : Heap}

mutual

/-- An element of zero bytes stands for the zero value of its type. -/
theorem ElementType.LooksLike.viewed_of_isZero {type : ElementType} (h : type.Laid)
    {bytes : Bytes} (hzero : bytes.IsZero) (hlength : bytes.length = type.width) {view : View}
    (hlooks : type.LooksLike heap bytes view) : type.viewed view = type.zeroValue := by
  match type, h with
  | .number type, _ =>
    obtain rfl := hlooks.contents_inj rfl
    exact type.load_of_isZero hzero
  | .enum backing _, _ =>
    obtain rfl := hlooks.contents_inj rfl
    exact backing.load_of_isZero hzero
  | .fixedString _, _ =>
    obtain rfl := hlooks.contents_inj rfl
    exact textOf_of_isZero hzero
  | .reference width, _ =>
    obtain rfl := hlooks.contents_inj rfl
    exact congrArg Value.bytes (List.eq_replicate_iff.2 ⟨hlength, hzero⟩)
  | .string, _ =>
    rcases hlooks.of_string with ⟨_, rfl⟩ | ⟨haddress, _⟩
    · rfl
    · exact absurd hzero.toNat_eq haddress
  | .vlen element, _ =>
    rcases hlooks.of_vlen with ⟨_, rfl⟩ | ⟨haddress, _⟩
    · rfl
    · exact absurd (hzero.cut 8 8).toNat_eq haddress
  | .array element length, h =>
    obtain ⟨items, hitems, rfl⟩ := hlooks.of_array
    rw [h.width_array, Nat.mul_comm] at hlength
    have hall := ElementType.looksLikeAt_of_contentsEach? hlength hitems
    have hviews : items.views.map element.viewed =
        List.replicate length.toNat element.zeroValue := by
      refine List.eq_replicate_iff.2 ⟨?_, fun value hvalue ↦ ?_⟩
      · rw [List.length_map, ElementType.length_views hitems]
      · obtain ⟨item, hitem, rfl⟩ := List.mem_map.1 hvalue
        obtain ⟨k, _, hlooksAt⟩ := Outcome.exists_mem_of_forall₂ hall hitem
        exact hlooksAt.looksLike.viewed_of_isZero h.1 (hzero.cut _ _)
          (Bytes.length_cut hlooksAt.stop_le)
    exact congrArg Value.list hviews
  | .compound members size, h =>
    obtain ⟨items, hitems, rfl⟩ := hlooks.of_compound
    exact congrArg Value.tuple
      (Members.viewed_of_isZero h.inside hzero (Nat.le_of_eq hlength.symm) hitems)

/-- The members of a record of zero bytes stand for the zero values of their types. -/
theorem Members.viewed_of_isZero {members : Members} {width : Nat} (h : members.Inside width)
    {bytes : Bytes} (hzero : bytes.IsZero) (hlength : width ≤ bytes.length) {contents : Contents}
    (hcontents : members.contents? heap bytes = some contents) :
    members.viewed contents.views = members.zeroValues := by
  match members with
  | .nil => rfl
  | .cons name offset type rest =>
    obtain ⟨first, others, hfirst, hothers, rfl⟩ := Members.contents?_cons_eq_some.1 hcontents
    obtain ⟨view, hview, hlooks⟩ := ElementType.looksLike_of_contents? hfirst
    have hstop := h.stop_le ⟨name, offset, type⟩ List.mem_cons_self
    dsimp only at hstop
    have hhead := hlooks.viewed_of_isZero h.laid.2.1 (hzero.cut _ _)
      (Bytes.length_cut (Nat.le_trans hstop hlength))
    have hrest := Members.viewed_of_isZero h.tail hzero hlength hothers
    rw [Contents.views_append, hview]
    change type.viewed view :: rest.viewed others.views = _
    rw [hhead, hrest]
    rfl

end

end Stowage
