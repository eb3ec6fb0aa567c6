import Stowage.Descriptor.Reader
import Stowage.Proofs.Action
import Stowage.Proofs.Descriptor.Meaning
import Stowage.Proofs.Outcome

/-!
# What a reader answers

The answers of a reader are those of the texts alone, whatever the reader has kept from the texts
it read before (`Reader.parse_outcome`, `Reader.parseDefinitions_outcome`). A text begins with a
cleared table. Within the text, the definitions that are collected beside the table are those in the
table, so reading by steps gives what handing the table along gives
(`Reader.definitionList_outcome`).
-/

set_option autoImplicit false

namespace Stowage.Descriptor.Reader

open Stowage.Action Outcome

/-- A step that is known in advance is taken on both sides. -/
theorem outcome_ofExcept_bind {α β γ : Type} {outcome : Except Fault α} {f : α → Action Reader β}
    {g : α → Except Fault γ} {h : β → γ} {reader : Reader}
    (hnext : ∀ a, (run (f a) reader).1.map h = g a) :
    (run (ofExcept outcome >>= f) reader).1.map h = outcome >>= g := by
  cases outcome with
  | error fault => rfl
  | ok a => exact hnext a

theorem run_define (name : String) (type : ElementType) (reader : Reader) :
    run (define name type) reader =
      match Descriptor.define reader.definitions name type with
      | .ok definitions => (.ok (), ⟨definitions⟩)
      | .error fault => (.error fault, reader) := by
  rw [define, run_bind, run_reading]
  cases Descriptor.define reader.definitions name type <;> rfl

/-- The definitions that a reader collects come behind those in its table. -/
theorem definitionList_outcome (stop : Option Fault) (bound : Nat) (tokens : List Token)
    (reader : Reader) :
    (run (definitionList stop bound tokens) reader).1.map (reader.definitions ++ ·) =
      Descriptor.definitionList stop bound reader.definitions tokens := by
  induction bound generalizing tokens reader with
  | zero => rfl
  | succ bound ih =>
    rw [definitionList, Descriptor.definitionList]
    refine outcome_ofExcept_bind fun ⟨_, tokens⟩ ↦ ?_
    refine outcome_ofExcept_bind fun ⟨name, tokens⟩ ↦ ?_
    refine outcome_ofExcept_bind fun ⟨_, tokens⟩ ↦ ?_
    refine outcome_ofExcept_bind fun ⟨type, tokens⟩ ↦ ?_
    refine outcome_ofExcept_bind fun _ ↦ ?_
    rcases hdefine : Descriptor.define reader.definitions name type with fault | found
    · rw [run_bind, run_define, hdefine]
      rfl
    · obtain ⟨-, rfl⟩ := define_eq_ok_iff.1 hdefine
      rw [run_bind, run_define, hdefine, ok_bind]
      cases tokens with
      | nil => rfl
      | cons token tokens =>
        dsimp only
        rw [← ih, run_bind]
        rcases run (definitionList stop bound (token :: tokens))
          ⟨reader.definitions ++ [(name, type)]⟩ with ⟨fault | others, last⟩
        · rfl
        · exact congrArg Except.ok (List.append_cons _ _ _)

/-- With a cleared table, a reader gives the document of a scanned text. -/
theorem document_outcome (scan : Scan) :
    (run (document scan) ⟨[]⟩).1 = Descriptor.document scan := by
  obtain ⟨tokens, stop⟩ := scan
  rw [Descriptor.document]
  dsimp only
  split
  · rw [← definitionList_outcome _ _ _ ⟨[]⟩, document, run_bind]
    dsimp only
    rcases run (definitionList _ _ _) ⟨[]⟩ with ⟨fault | definitions, last⟩ <;> rfl
  · next hdefine =>
    rw [document]
    dsimp only
    split
    · exact absurd rfl (hdefine _ _)
    · rw [run_bind, typeExpr, run_reading]
      rcases Descriptor.typeExpr _ _ _ _ with fault | ⟨type, _ | _⟩ <;> rfl

/-- A reader gives the document of a text, whatever it has kept from the texts before. -/
theorem read_outcome (text : String) (reader : Reader) :
    (run (read text) reader).1 = Descriptor.document (Scan.ofText text) :=
  document_outcome (Scan.ofText text)

theorem parse_outcome (text : String) (reader : Reader) :
    (run (parse text) reader).1 = Descriptor.parse text := by
  rw [parse, Descriptor.parse, ← read_outcome text reader, run_bind]
  rcases run (read text) reader with ⟨fault | described | definitions, last⟩
  · rfl
  · rfl
  · rw [ok_bind]
    dsimp only
    cases definitions.getLast? <;> rfl

theorem parseDefinitions_outcome (text : String) (reader : Reader) :
    (run (parseDefinitions text) reader).1 = Descriptor.parseDefinitions text := by
  rw [parseDefinitions, Descriptor.parseDefinitions, ← read_outcome text reader, run_bind]
  rcases run (read text) reader with ⟨fault | described | definitions, last⟩ <;> rfl

end Stowage.Descriptor.Reader
