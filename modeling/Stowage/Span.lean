/-!
# Named spans

A span is a named run of bytes from `offset` up to `stop`. `firstOverlap?` puts spans in order of
their offsets, spans of one offset in the order given, and finds the first that starts before the
one in front of it ends.
-/

set_option autoImplicit false

namespace Stowage

/-- A named run of bytes. -/
structure Span where
  /-- What lies there. -/
  name : String
  /-- The first byte. -/
  offset : Int
  /-- The byte after the last. -/
  stop : Int
  deriving DecidableEq, Repr

namespace Span

/-- Inserts a span in front of the first that does not start before it. -/
def insert (span : Span) : List Span → List Span
  | [] => [span]
  | other :: rest =>
    if span.offset ≤ other.offset then span :: other :: rest else other :: insert span rest

/-- Spans in order of their offsets. -/
def sort : List Span → List Span
  | [] => []
  | span :: rest => insert span (sort rest)

/-- The first span of a sequence that starts before its predecessor ends, after that
predecessor. -/
def clash? : List Span → Option (Span × Span)
  | before :: span :: rest =>
    if span.offset < before.stop then some (before, span) else clash? (span :: rest)
  | _ => none

/-- The first overlap of neighbours in order of offsets. -/
def firstOverlap? (spans : List Span) : Option (Span × Span) := clash? (sort spans)

theorem insert_perm (span : Span) (spans : List Span) :
    (insert span spans).Perm (span :: spans) := by
  induction spans with
  | nil => exact .refl _
  | cons other rest ih =>
    rw [insert]
    split
    · exact .refl _
    · exact (ih.cons other).trans (.swap span other rest)

theorem sort_perm (spans : List Span) : (sort spans).Perm spans := by
  induction spans with
  | nil => exact .refl _
  | cons span rest ih => exact (insert_perm span (sort rest)).trans (ih.cons span)

theorem insert_pairwise (span : Span) {spans : List Span}
    (h : spans.Pairwise fun a b => a.offset ≤ b.offset) :
    (insert span spans).Pairwise fun a b => a.offset ≤ b.offset := by
  induction spans with
  | nil => simp [insert]
  | cons other rest ih =>
    obtain ⟨hother, hrest⟩ := List.pairwise_cons.1 h
    rw [insert]
    split
    · next hle =>
      refine List.pairwise_cons.2 ⟨fun third hthird => ?_, h⟩
      rcases List.mem_cons.1 hthird with rfl | hthird
      · exact hle
      · exact Int.le_trans hle (hother third hthird)
    · next hle =>
      refine List.pairwise_cons.2 ⟨fun third hthird => ?_, ih hrest⟩
      rcases List.mem_cons.1 ((insert_perm span rest).mem_iff.1 hthird) with rfl | hthird
      · exact Int.le_of_lt (Int.not_le.1 hle)
      · exact hother third hthird

/-- Spans come out in order of their offsets. -/
theorem sort_pairwise (spans : List Span) :
    (sort spans).Pairwise fun a b => a.offset ≤ b.offset := by
  induction spans with
  | nil => exact .nil
  | cons span rest ih => exact insert_pairwise span ih

example : firstOverlap? [⟨"a", 8, 16⟩, ⟨"b", 0, 4⟩, ⟨"c", 4, 12⟩] =
    some (⟨"c", 4, 12⟩, ⟨"a", 8, 16⟩) := by decide

end Span

end Stowage
