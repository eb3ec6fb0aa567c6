import Stowage.Proofs.ElementType.WellFormed

/-!
# Types whose parts are laid out

A type that is given directly may have strings without width, members of one name, or bytes that
belong to no member. `ElementType.Laid` asks only for what storing elements back to back needs:
sizes are not negative, and the parts of an element lie inside it and beside each other. Every
well-formed type is laid out (`ElementType.WellFormed.laid`).

In terms of numbers of bytes, the members of such a compound are `Members.Inside` it.
-/

set_option autoImplicit false

namespace Stowage

/-- Members lie inside the bytes of their compound and beside each other. -/
structure Members.Disposed (members : Members) (size : Int) : Prop where
  /-- The compound has a size. -/
  size_nonneg : 0 ≤ size
  /-- Members lie beside each other. -/
  apart : members.toList.Pairwise Member.Apart
  /-- No member reaches past the end. -/
  stop_le : ∀ m ∈ members.toList, m.stop ≤ size

mutual

/-- The parts of an element lie inside it and beside each other. -/
def ElementType.Laid : ElementType → Prop
  | .number _ => True
  | .fixedString width => 0 ≤ width
  | .string => True
  | .vlen element => element.Laid
  | .array element length => element.Laid ∧ 0 ≤ length
  | .reference width => 0 ≤ width
  | .enum _ _ => True
  | .compound members size => members.Laid ∧ members.Disposed size

/-- Each member is laid out and does not start before the compound. -/
def Members.Laid : Members → Prop
  | .nil => True
  | .cons _ offset type rest => 0 ≤ offset ∧ type.Laid ∧ rest.Laid

end

theorem Members.Laid.of_mem {members : Members} (h : members.Laid) {member : Member}
    (hmem : member ∈ members.toList) : 0 ≤ member.offset ∧ member.type.Laid := by
  match members, h with
  | .nil, _ => exact absurd hmem List.not_mem_nil
  | .cons _ _ _ rest, ⟨hoffset, htype, hrest⟩ =>
    rcases List.mem_cons.1 hmem with rfl | hmem
    · exact ⟨hoffset, htype⟩
    · exact Members.Laid.of_mem hrest hmem

theorem Members.laid_iff {members : Members} :
    members.Laid ↔ ∀ m ∈ members.toList, 0 ≤ m.offset ∧ m.type.Laid := by
  refine ⟨fun h m hm ↦ h.of_mem hm, fun h ↦ ?_⟩
  match members with
  | .nil => trivial
  | .cons name offset type rest =>
    obtain ⟨hoffset, htype⟩ := h ⟨name, offset, type⟩ List.mem_cons_self
    exact ⟨hoffset, htype, Members.laid_iff.2 fun m hm ↦ h m (List.mem_cons_of_mem _ hm)⟩

theorem Members.Placed.disposed {members : Members} {size : Int} (h : members.Placed size)
    (hsize : 0 ≤ size) : members.Disposed size where
  size_nonneg := hsize
  apart := h.apart
  stop_le := fun _ hm ↦ h.size_eq ▸ stop_le_extent hm

mutual

/-- A well-formed type is laid out. -/
theorem ElementType.WellFormed.laid {type : ElementType} (h : type.WellFormed) : type.Laid := by
  match type, h with
  | .number _, _ | .string, _ | .enum _ _, _ => trivial
  | .fixedString _, hwidth | .reference _, hwidth => exact Int.le_of_lt hwidth
  | .vlen element, helement => exact @ElementType.WellFormed.laid element helement
  | .array _ _, ⟨helement, hlength, _⟩ => exact ⟨helement.laid, Int.le_of_lt hlength⟩
  | .compound _ _, hcompound =>
    have hsize := Int.le_of_lt (ElementType.size_pos hcompound)
    exact ⟨hcompound.1.laid, hcompound.2.disposed hsize⟩

theorem Members.WellFormed.laid {members : Members} (h : members.WellFormed) : members.Laid := by
  match members, h with
  | .nil, _ => trivial
  | .cons _ _ _ _, ⟨hoffset, htype, hrest⟩ => exact ⟨hoffset, htype.laid, hrest.laid⟩

end

/-- A well-formed type serves wherever a type that is laid out does. -/
instance {type : ElementType} : Coe type.WellFormed type.Laid := ⟨ElementType.WellFormed.laid⟩

/-! ### Sizes -/

namespace ElementType.Laid

variable {type element : ElementType}

theorem size_nonneg {type : ElementType} (h : type.Laid) : 0 ≤ type.size := by
  match type, h with
  | .number type, _ => exact Int.natCast_nonneg _
  | .fixedString _, hwidth | .reference _, hwidth => exact hwidth
  | .string, _ | .vlen _, _ | .enum _ _, _ => exact Int.natCast_nonneg _
  | .array _ _, ⟨helement, hlength⟩ => exact Int.mul_nonneg helement.size_nonneg hlength
  | .compound _ _, ⟨_, hdisposed⟩ => exact hdisposed.size_nonneg

theorem size_eq_width (h : type.Laid) : type.size = type.width :=
  (Int.toNat_of_nonneg h.size_nonneg).symm

/-- The size of some elements back to back. -/
theorem mul_size (h : type.Laid) (count : Nat) :
    (count : Int) * type.size = ((count * type.width : Nat) : Int) := by
  rw [h.size_eq_width, Int.natCast_mul]

theorem width_array {length : Int} (h : (array element length).Laid) :
    (array element length).width = element.width * length.toNat := by
  obtain ⟨helement, hlength⟩ := h
  obtain ⟨count, rfl⟩ := Int.eq_ofNat_of_zero_le hlength
  rw [width, size, helement.size_eq_width, ← Int.natCast_mul, Int.toNat_natCast, Int.toNat_natCast]

end ElementType.Laid

/-! ### Members -/

/-- The members of a compound in terms of numbers of bytes. -/
structure Members.Inside (members : Members) (width : Nat) : Prop where
  /-- The members are laid out. -/
  laid : members.Laid
  /-- Members lie beside each other. -/
  apart : members.toList.Pairwise Member.Apart
  /-- No member reaches past the end. -/
  stop_le : ∀ m ∈ members.toList, m.offset.toNat + m.type.width ≤ width

theorem ElementType.Laid.inside {members : Members} {size : Int}
    (h : (ElementType.compound members size).Laid) :
    members.Inside (ElementType.compound members size).width where
  laid := h.1
  apart := h.2.apart
  stop_le := by
    intro m hm
    obtain ⟨hoffset, htype⟩ := h.1.of_mem hm
    have hstop := h.2.stop_le m hm
    have hsize := htype.size_eq_width
    unfold Member.stop at hstop
    change _ ≤ size.toNat
    omega

theorem Members.Inside.tail {name : String} {offset : Int} {type : ElementType} {rest : Members}
    {width : Nat} (h : (Members.cons name offset type rest).Inside width) : rest.Inside width where
  laid := h.laid.2.2
  apart := (List.pairwise_cons.1 h.apart).2
  stop_le := fun m hm ↦ h.stop_le m (List.mem_cons_of_mem _ hm)

/-- The first member lies beside every other one. -/
theorem Members.Inside.head_apart {name : String} {offset : Int} {type : ElementType}
    {rest : Members} {width : Nat} (h : (Members.cons name offset type rest).Inside width)
    {m : Member} (hm : m ∈ rest.toList) :
    offset.toNat + type.width ≤ m.offset.toNat ∨
      m.offset.toNat + m.type.width ≤ offset.toNat := by
  have happart : Member.Apart ⟨name, offset, type⟩ m := (List.pairwise_cons.1 h.apart).1 m hm
  obtain ⟨hoffset, htype, hrest⟩ := h.laid
  obtain ⟨hm_offset, hm_type⟩ := hrest.of_mem hm
  have hsize := htype.size_eq_width
  have hm_size := hm_type.size_eq_width
  unfold Member.Apart Member.stop at happart
  dsimp only at happart
  omega

end Stowage
