import Stowage.Span
import Mathlib.Data.List.Pairwise
import Mathlib.Data.List.Perm.Basic

/-!
# When spans overlap

`Span.firstOverlap?` compares neighbours in order of offsets only. That is enough: when no span is
empty, it finds nothing exactly when every two spans lie beside each other
(`firstOverlap?_eq_none_iff`).
-/

set_option autoImplicit false

namespace Stowage.Span

/-- Two spans that have no byte in common. -/
def Apart (first second : Span) : Prop :=
  first.stop ≤ second.offset ∨ second.stop ≤ first.offset

theorem Apart.symm {first second : Span} (h : first.Apart second) : second.Apart first := Or.symm h

/-- Neighbours that do not overlap: every span ends before all later ones start. -/
theorem pairwise_of_clash?_eq_none {spans : List Span} (hpos : ∀ s ∈ spans, s.offset ≤ s.stop)
    (h : clash? spans = none) : spans.Pairwise fun a b ↦ a.stop ≤ b.offset := by
  induction spans with
  | nil => exact .nil
  | cons before rest ih =>
    cases rest with
    | nil => simp
    | cons span rest =>
      rw [clash?] at h
      split at h
      · exact absurd h (by simp)
      · next hnot =>
        have hrest := ih (fun s hs ↦ hpos s (List.mem_cons_of_mem _ hs)) h
        refine List.pairwise_cons.2 ⟨fun s hs ↦ ?_, hrest⟩
        rcases List.mem_cons.1 hs with rfl | hs
        · omega
        · have hspan := hpos span (by simp)
          have hlater := (List.pairwise_cons.1 hrest).1 s hs
          omega

/-- Spans that may be empty, but do not end before they start. Where no overlap is found there is
none. -/
theorem pairwise_of_firstOverlap?_eq_none {spans : List Span}
    (hpos : ∀ s ∈ spans, s.offset ≤ s.stop) (h : firstOverlap? spans = none) :
    spans.Pairwise Apart := by
  have hperm := sort_perm spans
  rw [← hperm.pairwise_iff Apart.symm]
  exact (pairwise_of_clash?_eq_none (fun s hs ↦ hpos s (hperm.mem_iff.1 hs)) h).imp Or.inl

theorem clash?_eq_none_of_pairwise {spans : List Span} (hpos : ∀ s ∈ spans, s.offset < s.stop)
    (hsorted : spans.Pairwise fun a b ↦ a.offset ≤ b.offset) (hapart : spans.Pairwise Apart) :
    clash? spans = none := by
  induction spans with
  | nil => rfl
  | cons before rest ih =>
    cases rest with
    | nil => rfl
    | cons span rest =>
      obtain ⟨hbefore, hsorted⟩ := List.pairwise_cons.1 hsorted
      obtain ⟨happart, hapart⟩ := List.pairwise_cons.1 hapart
      have hle := hbefore span List.mem_cons_self
      have hspan := hpos span (by simp)
      have hbeside : before.stop ≤ span.offset := by
        rcases happart span List.mem_cons_self with h | h <;> omega
      rw [clash?, if_neg (by omega)]
      exact ih (fun s hs ↦ hpos s (List.mem_cons_of_mem _ hs)) hsorted hapart

/-- Assumes: no span is empty. No overlap is found exactly when there is none. -/
theorem firstOverlap?_eq_none_iff {spans : List Span} (hpos : ∀ s ∈ spans, s.offset < s.stop) :
    firstOverlap? spans = none ↔ spans.Pairwise Apart := by
  constructor
  · exact pairwise_of_firstOverlap?_eq_none fun s hs ↦ Int.le_of_lt (hpos s hs)
  · intro hapart
    have hperm := sort_perm spans
    refine clash?_eq_none_of_pairwise (fun s hs ↦ hpos s (hperm.mem_iff.1 hs))
      (sort_pairwise spans) ((hperm.pairwise_iff Apart.symm).2 hapart)

end Stowage.Span
