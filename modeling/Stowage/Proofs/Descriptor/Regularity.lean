import Stowage.Proofs.Record.Disjointness
import Mathlib.Order.Bounds.Basic

/-!
# Every described type is regular

`ElementType.WellFormed` is what the induction over the grammar carries. Here the same is said of
single types in terms of bytes (`ElementType.Regular`): nothing is empty, no two members share a
name or a byte, and a compound reaches exactly as far as the member that ends last. Every type that
descriptor text describes or defines is regular and takes a byte, and so is every type in it, to any
depth and whether it was written out or named (`Descriptor.regular_of_contains`).
-/

set_option autoImplicit false

namespace Stowage

/-- Nothing in the type itself is empty, missing or said twice. What the types in it are like is
not part of it. -/
def ElementType.Regular : ElementType → Prop
  | .fixedString width | .reference width => 1 ≤ width
  | .array element length => 1 ≤ length ∧ element.typeClass ≠ .array
  | .enum backing constants =>
    constants ≠ [] ∧ (constants.map (·.1)).Nodup ∧ backing.isInteger = true
  | .compound members size =>
    members.toList ≠ [] ∧ (members.toList.map (·.name)).Nodup ∧
      (∀ m ∈ members.toList, 0 ≤ m.offset) ∧ DisjointMembers members.toList ∧
        IsGreatest {stop | ∃ m ∈ members.toList, m.stop = stop} size
  | .number _ | .string | .vlen _ => True

/-- The extent of some members is where the last of them ends. -/
theorem isGreatest_extent {members : List Member} (h : members ≠ []) :
    IsGreatest {stop | ∃ m ∈ members, m.stop = stop} (extent members) := by
  refine ⟨exists_stop_eq_extent h, ?_⟩
  rintro stop ⟨member, hmember, rfl⟩
  exact stop_le_extent hmember

theorem Descriptor.isArrayType_eq_false_iff {type : ElementType} :
    isArrayType type = false ↔ type.typeClass ≠ .array := by
  cases type with
  | number number => cases number <;> decide
  | fixedString | string | vlen | array | reference | enum | compound =>
    simp [isArrayType, ElementType.typeClass]

/-- A compound whose members are well-formed and in their places is regular. -/
theorem Members.Placed.regular {members : Members} {size : Int} (hmembers : members.WellFormed)
    (h : members.Placed size) : (ElementType.compound members size).Regular := by
  have hsize : ∀ m ∈ members.toList, 0 < m.type.size := fun m hm ↦
    ElementType.size_pos (hmembers.of_mem hm).2
  refine ⟨h.nonempty, h.names, fun m hm ↦ (hmembers.of_mem hm).1, ?_, ?_⟩
  · exact (disjointMembers_iff hsize).2 h.apart
  · exact h.size_eq ▸ isGreatest_extent h.nonempty

theorem ElementType.WellFormed.regular {type : ElementType} (h : type.WellFormed) :
    type.Regular := by
  cases type with
  | number | string | vlen => trivial
  | fixedString width | reference width => exact h
  | array element length =>
    obtain ⟨_, hlength, hflat⟩ := h
    exact ⟨hlength, Descriptor.isArrayType_eq_false_iff.1 hflat⟩
  | enum backing constants =>
    obtain ⟨hinteger, hnonempty, hnames⟩ := h
    exact ⟨hnonempty, hnames, hinteger⟩
  | compound members size => exact h.2.regular h.1

namespace Descriptor

/-- Assumes: a type that some text describes, or that some text defines under a name. The type and
all types in it are regular and take at least one byte. -/
theorem regular_of_contains {type part : ElementType}
    (h : (∃ text, parse text = .ok type) ∨ ∃ text definitions name,
      parseDefinitions text = .ok definitions ∧ (name, type) ∈ definitions)
    (hpart : type.Contains part) : part.Regular ∧ 1 ≤ part.size := by
  have hwellFormed : part.WellFormed := Accepts.wellFormed_of_contains h hpart
  exact ⟨hwellFormed.regular, ElementType.size_pos hwellFormed⟩

/-- The levels of a row of readings, as a sensor reports them. -/
def levels : ElementType := .enum .int16 [("low", -3), ("high", -2), ("off", 0)]

/-- A table of readings, whose key stands behind the rows and whose rows have a name. -/
def readings : ElementType :=
  .compound (.ofList [⟨"rows", 8, .array (.vlen levels) 2⟩, ⟨"key", 0, .fixedString 4⟩]) 40

/-- A text that defines the rows first. -/
def readingsText : String :=
  "define row as array<vlen<enum<int16> \x7b low = -3, high, off = 0 \x7d>, 2> " ++
    "define readings as compound \x7b rows: row @ 8, key: string(4) @ 0 \x7d"

/-- The table and, through the name of its rows, the levels are regular. -/
theorem regular_of_contains_readings :
    parseDefinitions readingsText =
        .ok [("row", .array (.vlen levels) 2), ("readings", readings)] ∧
      (readings.Regular ∧ 1 ≤ readings.size) ∧ levels.Regular ∧ 1 ≤ levels.size := by
  have hparse : parseDefinitions readingsText =
      .ok [("row", .array (.vlen levels) 2), ("readings", readings)] := by decide +kernel
  have haccepts : Accepts readings :=
    .inr ⟨_, _, "readings", hparse, List.mem_cons_of_mem _ List.mem_cons_self⟩
  have hlevels : readings.Contains levels :=
    .tail (.tail (.tail .refl List.mem_cons_self) List.mem_cons_self) List.mem_cons_self
  exact ⟨hparse, regular_of_contains haccepts .refl, regular_of_contains haccepts hlevels⟩

end Descriptor

end Stowage
