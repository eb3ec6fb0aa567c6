import Stowage.Proofs.Descriptor.Syntax

/-!
# Recognizing descriptor text from the left

What may still come after some tokens of a document is a stack of goals. The next token either fits
the goal on top, which it replaces by the goals that are left of it, or it cannot follow
(`Goal.next`, `step`). Every stack of goals can be met by some tokens (`exists_accepts`). So the
tokens up to the first that fits no goal are the beginning of a recognized document, and with that
token they are not.

Every document of the grammar is recognized (`isDocument_of_mem_language`): what a nonterminal
derives is passed over as a goal is met, whatever follows it.
-/

set_option autoImplicit false

namespace Stowage.Descriptor

open TokenKind (identifier integer keyword mark)

/-! ### Goals -/

/-- What has to come next in a document. -/
inductive Goal where
  /-- A token of this kind. -/
  | kind (wanted : TokenKind)
  /-- A type expression. -/
  | type
  /-- A mark and tokens of these kinds, or nothing. -/
  | maybe (first : Mark) (after : List TokenKind)
  /-- Items up to a closing brace; behind other items there need not be more. -/
  | items (body : Body) (first : Bool)
  /-- What stands behind an item: a comma and more, or the closing brace. -/
  | separator (body : Body)
  deriving DecidableEq, Repr

/-- Whether a goal is met by nothing. -/
def Goal.isOptional : Goal → Bool
  | .maybe _ _ => true
  | _ => false

/-- What is left of an item behind its name, and then of its list. -/
def Body.rest : Body → List Goal
  | .constants => [.maybe .equals [integer], .separator .constants]
  | .members => [.kind (mark .colon), .type, .maybe .atSign [integer], .separator .members]

/-- The goals that are left of a type expression after a token. -/
def typeGoals : TokenKind → Option (List Goal)
  | identifier => some [.maybe .openParen [integer, mark .closeParen]]
  | keyword .vlen => some [.kind (mark .less), .type, .kind (mark .greater)]
  | keyword .array => some [.kind (mark .less), .type, .kind (mark .comma), .kind integer,
      .kind (mark .greater)]
  | keyword .enum => some [.kind (mark .less), .kind identifier, .kind (mark .greater),
      .kind (mark .openBrace), .items .constants true]
  | keyword .compound => some [.kind (mark .openBrace), .items .members true]
  | _ => none

/-- The goals that are left of a goal after a token that fits it. -/
def Goal.next : Goal → TokenKind → Option (List Goal)
  | .kind wanted, found => if found = wanted then some [] else none
  | .type, found => typeGoals found
  | .maybe first after, found => if found = mark first then some (after.map .kind) else none
  | .items body first, found =>
    if found = identifier then some body.rest
    else if first = false ∧ found = mark .closeBrace then some []
    else none
  | .separator body, found =>
    if found = mark .comma then some [.items body false]
    else if found = mark .closeBrace then some []
    else none

/-- The goals of a definition behind its first word. -/
def definitionGoals : List Goal := [.kind identifier, .kind (keyword .as), .type]

/-- The goals that are left after a token, if it can follow. Where no goal is left, another
definition can follow if there `more` of them. -/
def step (more : Bool) : List Goal → TokenKind → Option (List Goal)
  | [], found => if more = true ∧ found = keyword .define then some definitionGoals else none
  | goal :: goals, found =>
    match goal.next found with
    | some first => some (first ++ goals)
    | none => if goal.isOptional then step more goals found else none

/-- Whether tokens of these kinds meet the goals. -/
def accepts (more : Bool) : List Goal → List TokenKind → Bool
  | goals, [] => goals.all (·.isOptional)
  | goals, found :: rest =>
    match step more goals found with
    | some left => accepts more left rest
    | none => false

/-- Whether tokens of these kinds are a document. -/
def isDocument (w : List TokenKind) : Bool :=
  if w.head? = some (keyword .define) then accepts true [] w else accepts false [.type] w

variable {more : Bool} {goals left : List Goal} {found : TokenKind} {rest : List TokenKind}

theorem accepts_cons_of_step (h : step more goals found = some left) :
    accepts more goals (found :: rest) = accepts more left rest := by
  rw [accepts, h]

theorem accepts_cons_of_step_eq_none (h : step more goals found = none) :
    accepts more goals (found :: rest) = false := by
  rw [accepts, h]

theorem step_of_next {goal : Goal} {first : List Goal} (h : goal.next found = some first) :
    step more (goal :: goals) found = some (first ++ goals) := by
  rw [step, h]

/-- A token that fits the first goal. -/
theorem accepts_of_next {goal : Goal} {first : List Goal} (h : goal.next found = some first) :
    accepts more (goal :: goals) (found :: rest) = accepts more (first ++ goals) rest :=
  accepts_cons_of_step (step_of_next h)

theorem next_kind (wanted : TokenKind) : (Goal.kind wanted).next wanted = some [] := if_pos rfl

theorem next_maybe (first : Mark) (after : List TokenKind) :
    (Goal.maybe first after).next (mark first) = some (after.map .kind) := if_pos rfl

theorem next_items (body : Body) (first : Bool) :
    (Goal.items body first).next identifier = some body.rest := rfl

theorem next_comma (body : Body) :
    (Goal.separator body).next (mark .comma) = some [.items body false] := rfl

theorem next_items_closeBrace (body : Body) :
    (Goal.items body false).next (mark .closeBrace) = some [] := rfl

theorem next_closeBrace (body : Body) :
    (Goal.separator body).next (mark .closeBrace) = some [] := rfl

theorem accepts_kind :
    accepts more (.kind found :: goals) (found :: rest) = accepts more goals rest :=
  accepts_of_next (next_kind found)

/-- Nothing comes in the place of a goal that may be left out when its mark does not come. -/
theorem step_maybe {first : Mark} {after : List TokenKind} (h : found ≠ mark first) :
    step more (.maybe first after :: goals) found = step more goals found := by
  rw [step, Goal.next, if_neg h]
  exact if_pos rfl

theorem accepts_maybe {first : Mark} {after w : List TokenKind} (h : w.head? ≠ some (mark first)) :
    accepts more (.maybe first after :: goals) w = accepts more goals w := by
  cases w with
  | nil => rfl
  | cons found rest =>
    rw [accepts, accepts, step_maybe fun heq ↦ h (congrArg some heq)]

theorem accepts_kinds (after : List TokenKind) :
    accepts more (after.map .kind ++ goals) (after ++ rest) = accepts more goals rest := by
  induction after with
  | nil => rfl
  | cons kind after ih => rw [List.map_cons, List.cons_append, List.cons_append, accepts_kind, ih]

/-- The mark comes, and what has to follow it. -/
theorem accepts_maybe_mark (first : Mark) (after : List TokenKind) :
    accepts more (.maybe first after :: goals) (mark first :: (after ++ rest)) =
      accepts more goals rest :=
  (accepts_of_next (next_maybe first after)).trans (accepts_kinds after)

/-! ### The beginnings of phrases -/

theorem accepts_name : accepts more (.type :: goals) (identifier :: rest) =
    accepts more (.maybe .openParen [integer, mark .closeParen] :: goals) rest :=
  accepts_of_next (show Goal.type.next identifier = some [_] from rfl)

theorem accepts_vlen : accepts more (.type :: goals) (keyword .vlen :: mark .less :: rest) =
    accepts more (.type :: .kind (mark .greater) :: goals) rest :=
  (accepts_of_next rfl).trans accepts_kind

theorem accepts_array : accepts more (.type :: goals) (keyword .array :: mark .less :: rest) =
    accepts more (.type :: .kind (mark .comma) :: .kind integer :: .kind (mark .greater) :: goals)
      rest :=
  (accepts_of_next rfl).trans accepts_kind

theorem accepts_enum : accepts more (.type :: goals) (keyword .enum :: mark .less :: identifier ::
      mark .greater :: mark .openBrace :: rest) =
    accepts more (.items .constants true :: goals) rest := by
  refine Eq.trans (accepts_of_next rfl) ?_
  exact accepts_kinds [mark .less, identifier, mark .greater, mark .openBrace]

theorem accepts_compound : accepts more (.type :: goals)
      (keyword .compound :: mark .openBrace :: rest) =
    accepts more (.items .members true :: goals) rest :=
  (accepts_of_next rfl).trans accepts_kind

theorem accepts_member : accepts more (Body.members.rest ++ goals) (mark .colon :: rest) =
    accepts more (.type :: .maybe .atSign [integer] :: .separator .members :: goals) rest :=
  accepts_kind

theorem accepts_define : accepts true [] (keyword .define :: identifier :: keyword .as :: rest) =
    accepts true [.type] rest :=
  (accepts_cons_of_step (show step true [] (keyword .define) = some definitionGoals from rfl)).trans
    (accepts_kinds [identifier, keyword .as])

/-! ### Every stack of goals can be met -/

/-- Tokens that meet a goal, whatever the others are. -/
def Goal.sample : Goal → List TokenKind
  | .kind wanted => [wanted]
  | .type => [identifier, mark .openParen, integer, mark .closeParen]
  | .maybe first after => mark first :: after
  | .items .constants _ => [identifier, mark .equals, integer, mark .closeBrace]
  | .items .members _ => [identifier, mark .colon, identifier, mark .openParen, integer,
      mark .closeParen, mark .atSign, integer, mark .closeBrace]
  | .separator _ => [mark .closeBrace]

theorem accepts_sample (goal : Goal) :
    accepts more (goal :: goals) (goal.sample ++ rest) = accepts more goals rest := by
  cases goal with
  | kind wanted => exact accepts_kind
  | maybe first after => exact accepts_maybe_mark first after
  | items body first => cases body <;> rfl
  | _ => rfl

/-- Some tokens meet all goals. -/
theorem exists_accepts (more : Bool) (goals : List Goal) : ∃ w, accepts more goals w = true := by
  induction goals with
  | nil => exact ⟨[], rfl⟩
  | cons goal goals ih =>
    obtain ⟨w, hw⟩ := ih
    exact ⟨goal.sample ++ w, (accepts_sample goal).trans hw⟩

/-! ### Documents are recognized -/

/-- What comes next ends an item of a list. -/
def AtSeparator (w : List TokenKind) : Prop :=
  w.head? = some (mark .comma) ∨ w.head? = some (mark .closeBrace)

theorem AtSeparator.head?_ne {w : List TokenKind} (h : AtSeparator w) {first : Mark}
    (hcomma : first ≠ .comma) (hbrace : first ≠ .closeBrace) : w.head? ≠ some (mark first) := by
  rcases h with h | h <;> rw [h] <;> simp [hcomma.symm, hbrace.symm]

/-- Tokens that meet a goal whatever follows them, as long as it may follow. -/
def reading : Nonterminal → Language TokenKind
  | .document => {w | isDocument w = true}
  | .definitions | .definition => {w | w.head? = some (keyword .define) ∧
      ∀ x, x.head? ≠ some (mark .openParen) → accepts true [] (w ++ x) = accepts true [] x}
  | .type => {w | ∀ more goals x, x.head? ≠ some (mark .openParen) →
      accepts more (.type :: goals) (w ++ x) = accepts more goals x}
  | .list body => {w | ∀ more goals x, AtSeparator x →
      accepts more (.items body true :: goals) (w ++ x) =
        accepts more (.separator body :: goals) x}
  | .item body => {w | ∃ v, w = identifier :: v ∧ ∀ more goals x, AtSeparator x →
      accepts more (body.rest ++ goals) (v ++ x) = accepts more (.separator body :: goals) x}

/-- A list of items grows by one. -/
theorem list_mem_reading {body : Body} {p q : List TokenKind} (hp : p ∈ reading (.list body))
    (hq : q ∈ reading (.item body)) : p ++ mark .comma :: q ∈ reading (.list body) := by
  obtain ⟨v, rfl, hv⟩ := hq
  intro more goals x hx
  rw [List.append_assoc, List.cons_append, List.cons_append, hp more goals _ (.inl rfl),
    accepts_of_next (next_comma body), List.cons_append, List.nil_append,
    accepts_of_next (next_items body false)]
  exact hv more goals x hx

theorem item_mem_reading {body : Body} {w : List TokenKind} (h : w ∈ reading (.item body)) :
    w ∈ reading (.list body) := by
  obtain ⟨v, rfl, hv⟩ := h
  intro more goals x hx
  rw [List.cons_append, accepts_of_next (next_items body true)]
  exact hv more goals x hx

/-- A list ends at its closing brace, with or without a comma before it. -/
theorem accepts_list {body : Body} {p : List TokenKind} (hp : p ∈ reading (.list body))
    (x : List TokenKind) :
    accepts more (.items body true :: goals) (p ++ mark .closeBrace :: x) = accepts more goals x ∧
      accepts more (.items body true :: goals) (p ++ mark .comma :: mark .closeBrace :: x) =
        accepts more goals x := by
  constructor
  · rw [hp more goals _ (.inr rfl), accepts_of_next (next_closeBrace body)]
    rfl
  · rw [hp more goals _ (.inl rfl), accepts_of_next (next_comma body)]
    exact accepts_of_next (next_items_closeBrace body)

/-- The reading is closed under what a type expression may become. -/
theorem mem_reading_type {output : List (Symbol TokenKind Nonterminal)}
    (h : output ∈ alternatives .type) {w : List TokenKind} (hw : w ∈ words reading output) :
    w ∈ reading .type := by
  intro more goals x hx
  simp only [alternatives, List.mem_cons, List.not_mem_nil, or_false] at h
  rcases h with rfl | rfl | rfl | rfl | rfl | rfl | rfl | rfl <;>
    simp only [mem_words_nonterminal, mem_words_terminal, mem_words_nil, exists_eq_left,
      exists_eq_left'] at hw
  · -- a name alone
    subst hw
    exact accepts_name.trans (accepts_maybe hx)
  · -- a name with a width
    subst hw
    exact accepts_name.trans (accepts_maybe_mark .openParen [integer, mark .closeParen])
  · -- a sequence
    obtain ⟨_, ⟨_, ⟨u, hu, rfl⟩, rfl⟩, rfl⟩ := hw
    rw [List.cons_append, List.cons_append, List.append_assoc, accepts_vlen, hu more _ _ (by simp)]
    exact accepts_kind
  · -- an array
    obtain ⟨_, ⟨_, ⟨u, hu, rfl⟩, rfl⟩, rfl⟩ := hw
    rw [List.cons_append, List.cons_append, List.append_assoc, accepts_array, hu more _ _ (by simp)]
    exact accepts_kinds [mark .comma, integer, mark .greater]
  · -- an enumeration
    obtain ⟨_, ⟨_, ⟨_, ⟨_, ⟨_, ⟨u, hu, rfl⟩, rfl⟩, rfl⟩, rfl⟩, rfl⟩, rfl⟩ := hw
    simp only [List.cons_append, List.append_assoc]
    exact accepts_enum.trans (accepts_list hu x).1
  · -- an enumeration with a last comma
    obtain ⟨_, ⟨_, ⟨_, ⟨_, ⟨_, ⟨u, hu, rfl⟩, rfl⟩, rfl⟩, rfl⟩, rfl⟩, rfl⟩ := hw
    simp only [List.cons_append, List.append_assoc]
    exact accepts_enum.trans (accepts_list hu x).2
  · -- a compound
    obtain ⟨_, ⟨_, ⟨u, hu, rfl⟩, rfl⟩, rfl⟩ := hw
    simp only [List.cons_append, List.append_assoc]
    exact accepts_compound.trans (accepts_list hu x).1
  · -- a compound with a last comma
    obtain ⟨_, ⟨_, ⟨u, hu, rfl⟩, rfl⟩, rfl⟩ := hw
    simp only [List.cons_append, List.append_assoc]
    exact accepts_compound.trans (accepts_list hu x).2

/-- The reading is closed under what an item of a list may become. -/
theorem mem_reading_item {body : Body} {output : List (Symbol TokenKind Nonterminal)}
    (h : output ∈ alternatives (.item body)) {w : List TokenKind}
    (hw : w ∈ words reading output) : w ∈ reading (.item body) := by
  cases body <;> simp only [alternatives, List.mem_cons, List.not_mem_nil, or_false] at h <;>
    rcases h with rfl | rfl <;>
      simp only [mem_words_nonterminal, mem_words_terminal, mem_words_nil, exists_eq_left,
        exists_eq_left', List.append_nil, exists_eq_right] at hw
  · -- a constant
    subst hw
    exact ⟨[], rfl, fun more goals x hx ↦ accepts_maybe (hx.head?_ne (by simp) (by simp))⟩
  · -- a constant with a value
    subst hw
    exact ⟨_, rfl, fun more goals x hx ↦ accepts_maybe_mark .equals [integer]⟩
  · -- a member
    obtain ⟨_, ⟨u, hu, rfl⟩, rfl⟩ := hw
    refine ⟨_, rfl, fun more goals x hx ↦ accepts_member.trans ?_⟩
    exact (hu more _ x (hx.head?_ne (by simp) (by simp))).trans
      (accepts_maybe (hx.head?_ne (by simp) (by simp)))
  · -- a member with an offset
    obtain ⟨_, ⟨_, ⟨u, hu, rfl⟩, rfl⟩, rfl⟩ := hw
    refine ⟨_, rfl, fun more goals x hx ↦ ?_⟩
    rw [List.cons_append, List.append_assoc, accepts_member, hu more _ _ (by simp)]
    exact accepts_maybe_mark .atSign [integer]

/-- A type expression and definitions are recognized as documents. -/
theorem isDocument_of_mem_reading {w : List TokenKind}
    (h : w ∈ reading .type ∨ w ∈ reading .definitions) : isDocument w = true := by
  have hend : ([] : List TokenKind).head? ≠ some (mark .openParen) := by simp
  rcases h with h | ⟨hdefine, h⟩
  · have haccepts := h false [] [] hend
    rw [List.append_nil] at haccepts
    rw [isDocument, if_neg, haccepts]
    · rfl
    · -- no type expression begins with the word of definitions
      intro hdefine
      obtain ⟨rest, rfl⟩ := List.head?_eq_some_iff.1 hdefine
      exact absurd haccepts (by simp [accepts, step, Goal.next, typeGoals, Goal.isOptional])
  · have haccepts := h [] hend
    rw [List.append_nil] at haccepts
    rw [isDocument, if_pos hdefine, haccepts]
    rfl

/-- The reading is closed under the productions. -/
theorem mem_reading (A : Nonterminal) (output : List (Symbol TokenKind Nonterminal))
    (h : output ∈ alternatives A) (w : List TokenKind) (hw : w ∈ words reading output) :
    w ∈ reading A := by
  cases A with
  | document =>
    simp only [alternatives, List.mem_cons, List.not_mem_nil, or_false] at h
    rcases h with rfl | rfl <;>
      simp only [mem_words_nonterminal, mem_words_nil, exists_eq_left, List.append_nil,
        exists_eq_right] at hw
    · exact isDocument_of_mem_reading (.inl hw)
    · exact isDocument_of_mem_reading (.inr hw)
  | definitions =>
    simp only [alternatives, List.mem_cons, List.not_mem_nil, or_false] at h
    rcases h with rfl | rfl <;>
      simp only [mem_words_nonterminal, mem_words_nil, exists_eq_left, List.append_nil,
        exists_eq_right] at hw
    · exact hw
    · obtain ⟨p, ⟨hdefine, hp⟩, q, ⟨hdefine', hq⟩, rfl⟩ := hw
      refine ⟨?_, fun x hx ↦ ?_⟩
      · obtain ⟨rest, rfl⟩ := List.head?_eq_some_iff.1 hdefine
        rfl
      · obtain ⟨rest, rfl⟩ := List.head?_eq_some_iff.1 hdefine'
        rw [List.append_assoc, hp _ (by simp), hq x hx]
  | definition =>
    simp only [alternatives, List.mem_cons, List.not_mem_nil, or_false] at h
    subst h
    simp only [mem_words_nonterminal, mem_words_terminal, mem_words_nil, exists_eq_left,
      List.append_nil, exists_eq_right] at hw
    obtain ⟨_, ⟨_, ⟨u, hu, rfl⟩, rfl⟩, rfl⟩ := hw
    exact ⟨rfl, fun x hx ↦ accepts_define.trans (hu true [] x hx)⟩
  | type => exact mem_reading_type h hw
  | list body =>
    simp only [alternatives, List.mem_cons, List.not_mem_nil, or_false] at h
    rcases h with rfl | rfl <;>
      simp only [mem_words_nonterminal, mem_words_terminal, mem_words_nil, exists_eq_left,
        List.append_nil, exists_eq_right] at hw
    · exact item_mem_reading hw
    · obtain ⟨p, hp, _, ⟨q, hq, rfl⟩, rfl⟩ := hw
      exact list_mem_reading hp hq
  | item body => exact mem_reading_item h hw

/-- Every document of the grammar is recognized. -/
theorem isDocument_of_mem_language {w : List TokenKind} (h : w ∈ grammar.language) :
    isDocument w = true :=
  mem_of_mem_language mem_reading h

end Stowage.Descriptor
