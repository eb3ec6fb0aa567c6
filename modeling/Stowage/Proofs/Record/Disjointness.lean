import Stowage.Proofs.Descriptor.CompoundText
import Stowage.Proofs.Record.Layout
import Stowage.Proofs.Registry.Extension
import Stowage.Proofs.Store.Sound
import Mathlib.Logic.Relation

/-!
# Fields and members that share no byte

The layout of a record and the text of a compound are both checked for overlaps by comparing
neighbours in order of offsets. What the two checks mean is said here with the single bytes that
fields and members take: an accepted layout is one whose fields take bytes of the record only and
each of them once, and a compound text is read exactly when no two members take the same byte
(`overlap_checks_exact`). So the layout of a compound that was read is accepted.
-/

set_option autoImplicit false

namespace Stowage

/-- The member takes the byte. -/
def Member.HasByte (member : Member) (byte : Int) : Prop :=
  member.offset ≤ byte ∧ byte < member.stop

/-- No byte is taken by two members. -/
def DisjointMembers (members : List Member) : Prop :=
  members.Pairwise fun first second ↦ ∀ byte, first.HasByte byte → ¬ second.HasByte byte

/-- Every byte of every field is a byte of the record. -/
def RecordLayout.Encloses (layout : RecordLayout) : Prop :=
  ∀ field ∈ layout.fields, ∀ byte, field.HasByte byte → 0 ≤ byte ∧ byte < layout.size

/-- The types that a type contains, to any depth, and the type itself. -/
def ElementType.Contains : ElementType → ElementType → Prop :=
  Relation.ReflTransGen fun type part ↦ part ∈ type.parts

namespace Member

variable {first second member : Member}

theorem offset_lt_stop (hsize : 0 < member.type.size) : member.offset < member.stop := by
  unfold stop
  omega

/-- Assumes: the members take bytes. They share none when one ends before the other starts. -/
theorem not_hasByte_iff (hfirst : 0 < first.type.size) (hsecond : 0 < second.type.size) :
    (∀ byte, first.HasByte byte → ¬ second.HasByte byte) ↔ first.Apart second := by
  have hfirst := offset_lt_stop hfirst
  have hsecond := offset_lt_stop hsecond
  unfold HasByte Apart
  constructor
  · intro hdisjoint
    -- the later of the two first bytes belongs to one member only
    have hlater := hdisjoint (max first.offset second.offset)
    omega
  · intro hapart byte
    omega

/-- Assumes: the member takes bytes. These are bytes of the record when the member neither starts
before it nor ends behind it. -/
theorem hasByte_inside_iff (hsize : 0 < member.type.size) {size : Int} :
    (∀ byte, member.HasByte byte → 0 ≤ byte ∧ byte < size) ↔
      0 ≤ member.offset ∧ member.stop ≤ size := by
  have hstop := offset_lt_stop hsize
  unfold HasByte
  constructor
  · intro hinside
    have hfirst := hinside member.offset
    have hlast := hinside (member.stop - 1)
    omega
  · intro hinside byte
    omega

end Member

/-- Assumes: every member takes bytes. -/
theorem disjointMembers_iff {members : List Member} (hsize : ∀ m ∈ members, 0 < m.type.size) :
    DisjointMembers members ↔ members.Pairwise Member.Apart :=
  List.Pairwise.iff_of_mem fun hfirst hsecond ↦
    Member.not_hasByte_iff (hsize _ hfirst) (hsize _ hsecond)

/-! ### Layouts -/

/-- Assumes: every field is a number or a string and takes bytes. The layout is accepted exactly
when the fields lie inside the record and share no byte. -/
theorem RecordLayout.check_eq_ok_iff_disjoint {layout : RecordLayout}
    (htype : ∀ field ∈ layout.fields, isFieldType field.type = true)
    (hsize : ∀ field ∈ layout.fields, 0 < field.type.size) :
    layout.check = .ok () ↔ layout.Encloses ∧ DisjointMembers layout.fields := by
  rw [check_eq_ok_iff_apart hsize, disjointMembers_iff hsize]
  refine and_congr_left fun _ ↦ forall₂_congr fun field hfield ↦ ?_
  rw [Member.hasByte_inside_iff (hsize field hfield)]
  exact and_iff_right (htype field hfield)

/-! ### Compound texts -/

namespace Descriptor

variable {text : String} {members : List Member}

/-- A compound text is read exactly when its members share no byte, as the compound that ends with
the last of them. -/
theorem CompoundText.parse_eq_ok_iff (h : CompoundText text members) {type : ElementType} :
    parse text = .ok type ↔
      DisjointMembers members ∧ .compound (.ofList members) (extent members) = type := by
  obtain ⟨specs, hwellFormed, hplaced, hparse⟩ := h.parse_eq
  have hapart := firstOverlap?_eq_none_iff_apart hwellFormed
  rw [← disjointMembers_iff fun m hm ↦ ElementType.size_pos (hwellFormed m hm)] at hapart
  rw [hparse, compoundOf, hplaced, ← hapart]
  dsimp only
  rcases Span.firstOverlap? (members.map memberSpan) with _ | ⟨before, span⟩
  · exact ⟨fun h ↦ ⟨rfl, Except.ok.inj h⟩, fun h ↦ congrArg Except.ok h.2⟩
  · simp

/-- A type that descriptor text describes contains types that are well-formed. -/
theorem Accepts.wellFormed_of_contains {type part : ElementType} (h : Accepts type)
    (hpart : type.Contains part) : part.WellFormed := by
  induction hpart with
  | refl => exact h.wellFormed
  | tail _ hnext ih => exact ih.of_mem_parts hnext

end Descriptor

open Descriptor (Accepts CompoundText parse)

/-- Both checks for overlaps are exact. A layout of numbers and strings that take bytes is accepted
exactly when every field lies inside the record and no two fields share a byte. A compound text is
read exactly when no two members share a byte, and as the compound of these members. So every
compound of numbers and strings that descriptor text describes or defines, on its own or inside
another type, has a layout that is accepted. -/
theorem overlap_checks_exact :
    (∀ layout : RecordLayout,
      (∀ field ∈ layout.fields, RecordLayout.isFieldType field.type = true ∧
        0 < field.type.size) →
      (layout.check = .ok () ↔ layout.Encloses ∧ DisjointMembers layout.fields)) ∧
    (∀ text members, CompoundText text members →
      ((∃ type, parse text = .ok type) ↔ DisjointMembers members) ∧
      ∀ type, parse text = .ok type → type = .compound (.ofList members) (extent members)) ∧
    ∀ type members size, Accepts type → type.Contains (.compound members size) →
      (∀ m ∈ members.toList, RecordLayout.isFieldType m.type = true) →
      (RecordLayout.ofMembers members size).check = .ok () := by
  refine ⟨fun layout hfields ↦ ?_, fun text members htext ↦ ⟨?_, fun type htype ↦ ?_⟩,
    fun type members size haccepts hcontains hfields ↦ ?_⟩
  · exact RecordLayout.check_eq_ok_iff_disjoint (fun field hfield ↦ (hfields field hfield).1)
      fun field hfield ↦ (hfields field hfield).2
  · constructor
    · rintro ⟨type, htype⟩
      exact (htext.parse_eq_ok_iff.1 htype).1
    · intro hdisjoint
      exact ⟨_, htext.parse_eq_ok_iff.2 ⟨hdisjoint, rfl⟩⟩
  · exact (htext.parse_eq_ok_iff.1 htype).2.symm
  · exact RecordLayout.check_of_wellFormed (haccepts.wellFormed_of_contains hcontains) hfields

/-- A number that starts behind the fields listed after it. -/
def backwardFields : List Member :=
  [⟨"total", 8, .number .int64⟩, ⟨"code", 0, .fixedString 4⟩, ⟨"count", 4, .number .int32⟩]

theorem compoundText_backwardFields :
    CompoundText "compound \x7b total: int64 @ 8, code: string(4) @ 0, count: int32 \x7d"
      backwardFields := by
  have hspecs : Descriptor.MemberList [] _
      [⟨"total", .number .int64, some 8⟩, ⟨"code", .fixedString 4, some 0⟩,
        ⟨"count", .number .int32, none⟩] :=
    .cons (.mk (.name (.builtin (.number .int64))) (.present 8)) <|
      .cons (.mk (.sized (.string (by decide))) (.present 0)) <|
        .single (.mk (.name (.builtin (.number .int32))) .absent)
  exact .mk (Descriptor.tokenize_eq_ok_iff.2 ⟨by decide +kernel, rfl⟩) .bare hspecs .absent
    (by decide +kernel) (.given (.given (.following (.nil _)))) (by decide) (by decide)

theorem overlap_checks_exact_backwards :
    parse "compound \x7b total: int64 @ 8, code: string(4) @ 0, count: int32 \x7d" =
        .ok (.compound (.ofList backwardFields) 16) ∧
      (RecordLayout.mk backwardFields 16).check = .ok () := by
  obtain ⟨hlayout, htext, _⟩ := overlap_checks_exact
  obtain ⟨hiff, htype⟩ := htext _ _ compoundText_backwardFields
  have hdisjoint : DisjointMembers backwardFields :=
    (disjointMembers_iff (by decide)).2 (by decide)
  obtain ⟨type, hparse⟩ := hiff.2 hdisjoint
  refine ⟨htype type hparse ▸ hparse, (hlayout _ (by decide)).2 ⟨?_, ?_⟩⟩
  · have hinside : ∀ field ∈ backwardFields,
        0 < field.type.size ∧ 0 ≤ field.offset ∧ field.stop ≤ 16 := by decide
    intro field hfield
    exact (Member.hasByte_inside_iff (hinside field hfield).1).2 (hinside field hfield).2
  · exact hdisjoint

end Stowage
