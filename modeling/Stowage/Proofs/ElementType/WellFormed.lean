import Stowage.Descriptor.Meaning
import Stowage.Proofs.Span

/-!
# Well-formed element types

Nothing checks a type that is given directly. `ElementType.WellFormed` says what the types read from
descriptor text have in common: widths and lengths are positive, arrays are not nested in arrays
directly, an enumeration has constants of different names over an integer type, and a compound has
members of different names that lie apart from each other and reach exactly as far as its size.

The size of such a type is positive (`size_pos`), so it is a number of bytes (`width`).
-/

set_option autoImplicit false

namespace Stowage

/-- Two members that have no byte in common. -/
def Member.Apart (first second : Member) : Prop :=
  first.stop ≤ second.offset ∨ second.stop ≤ first.offset

instance (first second : Member) : Decidable (first.Apart second) :=
  inferInstanceAs (Decidable (_ ∨ _))

/-- Assumes: every member takes bytes. The search for overlaps finds none exactly when the members
lie beside each other. -/
theorem firstOverlap?_members_eq_none_iff {members : List Member}
    (h : ∀ m ∈ members, 0 < m.type.size) :
    Span.firstOverlap? (members.map fun m ↦ ⟨m.name, m.offset, m.stop⟩) = none ↔
      members.Pairwise Member.Apart := by
  have hpos : ∀ s ∈ members.map fun m ↦ (⟨m.name, m.offset, m.stop⟩ : Span),
      s.offset < s.stop := by
    intro s hs
    obtain ⟨m, hm, rfl⟩ := List.mem_map.1 hs
    have hsize := h m hm
    change m.offset < m.offset + m.type.size
    omega
  rw [Span.firstOverlap?_eq_none_iff hpos, List.pairwise_map]
  rfl

/-- The members of a compound do not share names or bytes, and its size is where the last of them
ends. -/
structure Members.Placed (members : Members) (size : Int) : Prop where
  /-- There is a member. -/
  nonempty : members.toList ≠ []
  /-- Members differ in their names. -/
  names : (members.toList.map (·.name)).Nodup
  /-- Members lie beside each other. -/
  apart : members.toList.Pairwise Member.Apart
  /-- The compound ends with its members. -/
  size_eq : size = extent members.toList

mutual

/-- The type could have been read from descriptor text. -/
def ElementType.WellFormed : ElementType → Prop
  | .number _ => True
  | .fixedString width => 0 < width
  | .string => True
  | .vlen element => element.WellFormed
  | .array element length =>
    element.WellFormed ∧ 0 < length ∧ Descriptor.isArrayType element = false
  | .reference width => 0 < width
  | .enum backing members =>
    backing.isInteger = true ∧ members ≠ [] ∧ (members.map (·.1)).Nodup
  | .compound members size => members.WellFormed ∧ members.Placed size

/-- Each member has a well-formed type and does not start before the compound. -/
def Members.WellFormed : Members → Prop
  | .nil => True
  | .cons _ offset type rest => 0 ≤ offset ∧ type.WellFormed ∧ rest.WellFormed

end

/-- The bytes one element takes inline, as a number of bytes. -/
def ElementType.width (type : ElementType) : Nat := type.size.toNat

/-! ### Extents -/

theorem le_foldl_stop (members : List Member) (start : Int) :
    start ≤ members.foldl (fun stop m ↦ max stop m.stop) start ∧
      ∀ m ∈ members, m.stop ≤ members.foldl (fun stop m ↦ max stop m.stop) start := by
  induction members generalizing start with
  | nil => simp
  | cons member rest ih =>
    obtain ⟨hstart, hrest⟩ := ih (max start member.stop)
    rw [List.foldl_cons]
    refine ⟨by omega, fun m hm ↦ ?_⟩
    rcases List.mem_cons.1 hm with rfl | hm
    · omega
    · exact hrest m hm

/-- Every member ends before the extent of them all. -/
theorem stop_le_extent {members : List Member} {member : Member} (h : member ∈ members) :
    member.stop ≤ extent members := by
  cases members with
  | nil => exact absurd h List.not_mem_nil
  | cons first rest =>
    obtain ⟨hfirst, hrest⟩ := le_foldl_stop rest first.stop
    rcases List.mem_cons.1 h with rfl | h
    · exact hfirst
    · exact hrest member h

theorem foldl_stop_eq (members : List Member) (start : Int) :
    members.foldl (fun stop m ↦ max stop m.stop) start = start ∨
      ∃ m ∈ members, m.stop = members.foldl (fun stop m ↦ max stop m.stop) start := by
  induction members generalizing start with
  | nil => exact .inl rfl
  | cons member rest ih =>
    rw [List.foldl_cons]
    rcases ih (max start member.stop) with h | ⟨m, hm, h⟩
    · rw [h]
      rcases Int.le_total start member.stop with hle | hle
      · exact .inr ⟨member, List.mem_cons_self, by omega⟩
      · exact .inl (by omega)
    · exact .inr ⟨m, List.mem_cons_of_mem _ hm, h⟩

/-- Some member ends where the extent of them all does. -/
theorem exists_stop_eq_extent {members : List Member} (h : members ≠ []) :
    ∃ m ∈ members, m.stop = extent members := by
  obtain ⟨first, rest, rfl⟩ := List.exists_cons_of_ne_nil h
  change ∃ m ∈ first :: rest, m.stop = rest.foldl (fun stop m ↦ max stop m.stop) first.stop
  rcases foldl_stop_eq rest first.stop with hfirst | ⟨m, hm, hrest⟩
  · exact ⟨first, List.mem_cons_self, hfirst.symm⟩
  · exact ⟨m, List.mem_cons_of_mem _ hm, hrest⟩

theorem Members.WellFormed.of_mem {members : Members} (h : members.WellFormed) {member : Member}
    (hmem : member ∈ members.toList) : 0 ≤ member.offset ∧ member.type.WellFormed := by
  match members, h with
  | .nil, _ => exact absurd hmem List.not_mem_nil
  | .cons _ _ _ rest, ⟨hoffset, htype, hrest⟩ =>
    rcases List.mem_cons.1 hmem with rfl | hmem
    · exact ⟨hoffset, htype⟩
    · exact Members.WellFormed.of_mem hrest hmem

theorem Members.wellFormed_iff {members : Members} :
    members.WellFormed ↔ ∀ m ∈ members.toList, 0 ≤ m.offset ∧ m.type.WellFormed := by
  refine ⟨fun h m hm ↦ h.of_mem hm, fun h ↦ ?_⟩
  match members with
  | .nil => trivial
  | .cons name offset type rest =>
    obtain ⟨hoffset, htype⟩ := h ⟨name, offset, type⟩ List.mem_cons_self
    exact ⟨hoffset, htype, Members.wellFormed_iff.2 fun m hm ↦ h m (List.mem_cons_of_mem _ hm)⟩

/-! ### Sizes -/

/-- An element takes at least one byte. -/
theorem ElementType.size_pos {type : ElementType} (h : type.WellFormed) : 0 < type.size := by
  match type, h with
  | .number type, _ => exact Int.natCast_pos.2 type.size_pos
  | .fixedString _, h => exact h
  | .string, _ => exact Int.natCast_pos.2 (by decide : 0 < addressSize)
  | .vlen _, _ => exact Int.natCast_pos.2 (by decide : 0 < entrySize)
  | .array _ _, ⟨helement, hlength, _⟩ => exact Int.mul_pos (size_pos helement) hlength
  | .reference _, h => exact h
  | .enum backing _, _ => exact Int.natCast_pos.2 backing.size_pos
  | .compound .nil _, ⟨_, hplaced⟩ => exact absurd rfl hplaced.nonempty
  | .compound (.cons name offset type rest) size, ⟨⟨hoffset, htype, _⟩, hplaced⟩ =>
    have hpos := size_pos htype
    have hmem : (⟨name, offset, type⟩ : Member) ∈ (Members.cons name offset type rest).toList :=
      List.mem_cons_self
    have hstop := stop_le_extent hmem
    rw [← hplaced.size_eq] at hstop
    unfold Member.stop at hstop
    change 0 < size
    dsimp only at hstop
    omega

namespace ElementType

variable {type element : ElementType}

theorem size_eq_width (h : type.WellFormed) : type.size = type.width := by
  have := size_pos h
  unfold width
  omega

theorem width_pos (h : type.WellFormed) : 0 < type.width := by
  have := size_pos h
  unfold width
  omega

@[simp] theorem width_number (type : NumberType) : (number type).width = type.size := rfl

@[simp] theorem width_string : string.width = addressSize := rfl

@[simp] theorem width_vlen (element : ElementType) : (vlen element).width = entrySize := rfl

theorem width_array {length : Int} (h : (array element length).WellFormed) :
    (array element length).width = element.width * length.toNat := by
  obtain ⟨helement, hlength, _⟩ := h
  have hsize := size_eq_width helement
  obtain ⟨count, rfl⟩ := Int.eq_ofNat_of_zero_le (Int.le_of_lt hlength)
  rw [width, size, hsize, ← Int.natCast_mul, Int.toNat_natCast, Int.toNat_natCast]

/-- The size of some elements back to back. -/
theorem mul_size (h : type.WellFormed) (count : Nat) :
    (count : Int) * type.size = ((count * type.width : Nat) : Int) := by
  rw [size_eq_width h, Int.natCast_mul]

end ElementType

end Stowage
