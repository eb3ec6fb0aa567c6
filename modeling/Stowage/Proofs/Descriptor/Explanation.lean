import Stowage.Proofs.Descriptor.Acceptance
import Stowage.Descriptor.Parser
import Stowage.Proofs.Outcome

/-!
# How the goals explain a reader

The reader of descriptor text looks for one phrase at a time and knows only what that phrase needs
next. The goals of the recognizer know what the whole document needs next, and `syntaxFault?` is the
fault of the first token that does not fit them. Every reader explains its outcome by the goals: a
fault of grammar is that of the goals in front of the phrase, and a phrase that was read leaves the
fault that the goals behind it have (`Explains`).

A token that was looked at and not taken is never blamed too early: a type is closed only in front
of a token of `Lexeme.closesType`, and the goals behind a type can take no other (`Closing`).
-/

set_option autoImplicit false

namespace Stowage.Descriptor

open Outcome (ok_bind error_bind)
open TokenKind (identifier integer keyword mark)

variable {stop : Option Fault} {more : Bool} {goals left : List Goal} {token : Token}
  {tokens rest : List Token} {α β : Type}

/-! ### The fault of the goals -/

/-- The fault of the first token that cannot follow, or of the end when the goals are not met or the
scan stopped there. -/
def syntaxFault? (stop : Option Fault) (more : Bool) : List Goal → List Token → Option Fault
  | goals, [] =>
    if stop = none ∧ accepts more goals [] = true then none else some (refusal stop [])
  | goals, token :: rest =>
    match step more goals token.lexeme.kind with
    | some left => syntaxFault? stop more left rest
    | none => some (refusal stop (token :: rest))

theorem syntaxFault?_of_step (h : step more goals token.lexeme.kind = some left) :
    syntaxFault? stop more goals (token :: rest) = syntaxFault? stop more left rest := by
  rw [syntaxFault?, h]

theorem syntaxFault?_of_step_eq_none (h : step more goals token.lexeme.kind = none) :
    syntaxFault? stop more goals (token :: rest) = some (refusal stop (token :: rest)) := by
  rw [syntaxFault?, h]

/-- A goal that cannot be left out and does not fit the next token. -/
theorem syntaxFault?_of_next {goal : Goal} (hoptional : goal.isOptional = false)
    (h : ∀ token ∈ tokens.head?, goal.next token.lexeme.kind = none) :
    syntaxFault? stop more (goal :: goals) tokens = some (refusal stop tokens) := by
  cases tokens with
  | nil =>
    refine if_neg fun hend ↦ ?_
    have hall : (goal :: goals).all (·.isOptional) = true := hend.2
    rw [List.all_cons, hoptional] at hall
    exact absurd hall Bool.false_ne_true
  | cons token rest =>
    refine syntaxFault?_of_step_eq_none ?_
    rw [step, h token rfl, hoptional]
    rfl

/-- Nothing comes in the place of a goal that may be left out when its mark does not come. -/
theorem syntaxFault?_maybe {first : Mark} {after : List TokenKind}
    (h : ∀ token ∈ tokens.head?, token.lexeme.kind ≠ mark first) :
    syntaxFault? stop more (.maybe first after :: goals) tokens =
      syntaxFault? stop more goals tokens := by
  cases tokens with
  | nil => rfl
  | cons token rest => rw [syntaxFault?, syntaxFault?, step_maybe (h token rfl)]

/-! ### Outcomes that the goals explain -/

/-- The goals explain the outcome of a reader: a fault of grammar is theirs, and what was read
leaves the fault to the goals behind it. -/
def Explains (stop : Option Fault) (more : Bool) (goals : List Goal) (tokens : List Token)
    (left : α → List Goal) : Except Fault (α × List Token) → Prop
  | .ok (a, rest) => rest.length ≤ tokens.length ∧
      syntaxFault? stop more goals tokens = syntaxFault? stop more (left a) rest
  | .error fault => ∀ cause, fault = .grammar cause →
      syntaxFault? stop more goals tokens = some fault

/-- The outcome is not a fault of grammar. -/
def NotGrammar (x : Except Fault α) : Prop := ∀ cause, x ≠ .error (.grammar cause)

namespace Explains

variable {after : α → List Goal} {afterNext : β → List Goal} {x : Except Fault (α × List Token)}

theorem ok (a : α) (h : after a = goals) :
    Explains stop more goals tokens after (.ok (a, tokens)) := by
  subst h
  exact ⟨Nat.le_refl _, rfl⟩

theorem refused (h : syntaxFault? stop more goals tokens = some (refusal stop tokens)) :
    Explains stop more goals tokens after (.error (refusal stop tokens)) :=
  fun _ _ ↦ h

theorem bind {f : α × List Token → Except Fault (β × List Token)}
    (hx : Explains stop more goals tokens after x)
    (hf : ∀ a rest, x = .ok (a, rest) → rest.length ≤ tokens.length →
      Explains stop more (after a) rest afterNext (f (a, rest))) :
    Explains stop more goals tokens afterNext (x >>= f) := by
  rcases x with fault | ⟨a, rest⟩
  · exact hx
  · obtain ⟨hlength, hfault⟩ := hx
    have hnext := hf a rest rfl hlength
    rw [ok_bind]
    generalize f (a, rest) = y at hnext ⊢
    rcases y with fault | ⟨b, others⟩
    · exact fun cause hcause ↦ hfault.trans (hnext cause hcause)
    · exact ⟨hnext.1.trans hlength, hfault.trans hnext.2⟩

/-- A token that fits the goals has been taken. -/
theorem step (h : Descriptor.step more goals token.lexeme.kind = some left)
    (hx : Explains stop more left rest after x) :
    Explains stop more goals (token :: rest) after x := by
  have hfault := @syntaxFault?_of_step stop more goals left token rest h
  rcases x with fault | ⟨a, others⟩
  · exact fun cause hcause ↦ hfault.trans (hx cause hcause)
  · exact ⟨hx.1.trans (Nat.le_succ _), hfault.trans hx.2⟩

/-- An optional part is not there. -/
theorem maybe {first : Mark} {kinds : List TokenKind}
    (h : ∀ token ∈ tokens.head?, token.lexeme.kind ≠ mark first)
    (hx : Explains stop more goals tokens after x) :
    Explains stop more (.maybe first kinds :: goals) tokens after x := by
  have hfault := @syntaxFault?_maybe stop more goals tokens first kinds h
  rcases x with fault | ⟨a, others⟩
  · exact fun cause hcause ↦ hfault.trans (hx cause hcause)
  · exact ⟨hx.1, hfault.trans hx.2⟩

/-- A phrase is given its meaning. -/
theorem meaning {x : Except Fault α} (hx : NotGrammar x) :
    Explains stop more goals tokens (fun _ ↦ goals) (x >>= fun a ↦ .ok (a, tokens)) := by
  rcases x with fault | a
  · rintro cause rfl
    exact absurd rfl (hx cause)
  · exact .ok a rfl

end Explains

/-! ### Single tokens -/

/-- One token of the wanted kind is taken, or else the tokens are refused. -/
inductive Takes (stop : Option Fault) (wanted : TokenKind) :
    List Token → Except Fault (α × List Token) → Prop
  | taken {token : Token} {rest : List Token} {a : α} (h : token.lexeme.kind = wanted) :
      Takes stop wanted (token :: rest) (.ok (a, rest))
  | refused {tokens : List Token} (h : ∀ token ∈ tokens.head?, token.lexeme.kind ≠ wanted) :
      Takes stop wanted tokens (.error (refusal stop tokens))

theorem cons_eq_of_lexeme {lexeme : Lexeme} (h : token.lexeme = lexeme) :
    token :: rest = ⟨lexeme, token.position⟩ :: rest := by
  subst h
  rfl

section Takes

variable {wanted : TokenKind} {x : Except Fault (α × List Token)}

theorem takes_mark (wanted : Mark) :
    Takes stop (mark wanted) tokens (takeMark stop wanted tokens) := by
  unfold takeMark
  split
  · next found position rest =>
    split
    · next hmark => exact .taken (congrArg mark hmark)
    · next hmark =>
      refine .refused fun token htoken hkind ↦ hmark ?_
      obtain rfl := Option.some.inj htoken
      exact TokenKind.mark.inj hkind
  · next hnone =>
    refine .refused fun token htoken hkind ↦ ?_
    obtain ⟨others, rfl⟩ := List.head?_eq_some_iff.1 htoken
    exact hnone wanted token.position others (cons_eq_of_lexeme (Lexeme.kind_eq_mark_iff.1 hkind))

theorem takes_keyword (wanted : Keyword) :
    Takes stop (keyword wanted) tokens (takeKeyword stop wanted tokens) := by
  unfold takeKeyword
  split
  · next found position rest =>
    split
    · next hword => exact .taken (congrArg keyword hword)
    · next hword =>
      refine .refused fun token htoken hkind ↦ hword ?_
      obtain rfl := Option.some.inj htoken
      exact TokenKind.keyword.inj hkind
  · next hnone =>
    refine .refused fun token htoken hkind ↦ ?_
    obtain ⟨others, rfl⟩ := List.head?_eq_some_iff.1 htoken
    exact hnone wanted token.position others
      (cons_eq_of_lexeme (Lexeme.kind_eq_keyword_iff.1 hkind))

theorem takes_identifier : Takes stop identifier tokens (takeIdentifier stop tokens) := by
  unfold takeIdentifier
  split
  · exact .taken rfl
  · next hnone =>
    refine .refused fun token htoken hkind ↦ ?_
    obtain ⟨others, rfl⟩ := List.head?_eq_some_iff.1 htoken
    obtain ⟨name, hname⟩ := Lexeme.kind_eq_identifier_iff.1 hkind
    exact hnone name token.position others (cons_eq_of_lexeme hname)

theorem takes_integer : Takes stop integer tokens (takeInteger stop tokens) := by
  unfold takeInteger
  split
  · exact .taken rfl
  · next hnone =>
    refine .refused fun token htoken hkind ↦ ?_
    obtain ⟨others, rfl⟩ := List.head?_eq_some_iff.1 htoken
    obtain ⟨value, hvalue⟩ := Lexeme.kind_eq_integer_iff.1 hkind
    exact hnone value token.position others (cons_eq_of_lexeme hvalue)

theorem Takes.length_lt {a : α} (h : Takes stop wanted tokens x) (hx : x = .ok (a, rest)) :
    rest.length < tokens.length := by
  subst hx
  cases h
  exact Nat.lt_succ_self _

/-- Assumes: a goal that cannot be left out and takes a token of the wanted kind and no token that
comes instead. The goal explains what a reader of such a token does. -/
theorem Takes.explains {goal : Goal} {first : List Goal} (h : Takes stop wanted tokens x)
    (hnext : goal.next wanted = some first) (hoptional : goal.isOptional = false)
    (hother : ∀ token ∈ tokens.head?, token.lexeme.kind ≠ wanted →
      goal.next token.lexeme.kind = none) :
    Explains stop more (goal :: goals) tokens (fun _ ↦ first ++ goals) x := by
  cases h with
  | taken hkind => exact .step (step_of_next (hkind ▸ hnext)) (.ok _ rfl)
  | refused hkind =>
    exact .refused (syntaxFault?_of_next hoptional fun token htoken ↦
      hother token htoken (hkind token htoken))

theorem Takes.explains_kind (h : Takes stop wanted tokens x) :
    Explains stop more (.kind wanted :: goals) tokens (fun _ ↦ goals) x :=
  h.explains (next_kind wanted) rfl fun _ _ hkind ↦ if_neg hkind

/-- The name of an item. Behind another item there may be a closing brace instead. -/
theorem Takes.explains_items {body : Body} {first : Bool} (h : Takes stop identifier tokens x)
    (hfirst : first = false → ∀ token ∈ tokens.head?, token.lexeme.kind ≠ mark .closeBrace) :
    Explains stop more (.items body first :: goals) tokens (fun _ ↦ body.rest ++ goals) x := by
  refine h.explains (next_items body first) rfl fun token htoken hkind ↦ ?_
  rw [Goal.next, if_neg hkind, if_neg]
  exact fun hbrace ↦ hfirst hbrace.1 token htoken hbrace.2

end Takes

/-! ### Optional parts and separators -/

theorem explains_takeOptional (wanted : Mark) :
    Explains stop more (.maybe wanted [integer] :: goals) tokens (fun _ ↦ goals)
      (takeOptional stop wanted tokens) := by
  unfold takeOptional
  split
  · next found position rest =>
    split
    · next hmark =>
      subst hmark
      refine .step (step_of_next (next_maybe found [integer])) ?_
      exact .bind takes_integer.explains_kind fun value rest _ _ ↦ .ok (some value) rfl
    · next hmark =>
      refine .maybe (fun token htoken hkind ↦ hmark ?_) (.ok none rfl)
      obtain rfl := Option.some.inj htoken
      exact TokenKind.mark.inj hkind
  · next hnone =>
    refine .maybe (fun token htoken hkind ↦ ?_) (.ok none rfl)
    obtain ⟨others, rfl⟩ := List.head?_eq_some_iff.1 htoken
    exact hnone wanted token.position others (cons_eq_of_lexeme (Lexeme.kind_eq_mark_iff.1 hkind))

/-- The goals behind the separator of a list: another item, or what comes behind the list. -/
def listGoals (body : Body) (goals : List Goal) (again : Bool) : List Goal :=
  if again then .items body false :: goals else goals

theorem explains_takeSeparator (body : Body) :
    Explains stop more (.separator body :: goals) tokens (listGoals body goals)
      (takeSeparator stop tokens) := by
  unfold takeSeparator
  split
  · exact .step (step_of_next (next_closeBrace body)) (.ok false rfl)
  · refine .step (step_of_next (next_comma body)) ?_
    exact .step (step_of_next (next_items_closeBrace body)) (.ok false rfl)
  · exact .step (step_of_next (next_comma body)) (.ok true rfl)
  · next hclose _ hcomma =>
    refine .refused (syntaxFault?_of_next rfl fun token htoken ↦ ?_)
    obtain ⟨others, rfl⟩ := List.head?_eq_some_iff.1 htoken
    rw [Goal.next, if_neg, if_neg]
    · exact fun hkind ↦ hclose token.position others
        (cons_eq_of_lexeme (Lexeme.kind_eq_mark_iff.1 hkind))
    · exact fun hkind ↦ hcomma token.position others
        (cons_eq_of_lexeme (Lexeme.kind_eq_mark_iff.1 hkind))

/-- Another item follows only where no closing brace does. -/
theorem ne_closeBrace_of_takeSeparator (h : takeSeparator stop tokens = .ok (true, rest)) :
    ∀ token ∈ rest.head?, token.lexeme.kind ≠ mark .closeBrace := by
  unfold takeSeparator at h
  split at h
  · exact absurd h (by simp)
  · exact absurd h (by simp)
  · next hbrace =>
    obtain ⟨-, rfl⟩ := Prod.mk.inj (Except.ok.inj h)
    intro token htoken hkind
    obtain ⟨others, rfl⟩ := List.head?_eq_some_iff.1 htoken
    exact hbrace token.position others
      (cons_eq_of_lexeme (Lexeme.kind_eq_mark_iff.1 hkind))
  · exact absurd h (by simp)

/-! ### The end of a type -/

/-- No token that fits the goals is one that cannot stand behind a type. -/
def Closing (more : Bool) (goals : List Goal) : Prop :=
  ∀ lexeme : Lexeme, lexeme.closesType = false → step more goals lexeme.kind = none

theorem closing_nil (more : Bool) : Closing more [] := by
  intro lexeme hlexeme
  refine if_neg fun hdefine ↦ ?_
  rw [Lexeme.kind_eq_keyword_iff.1 hdefine.2] at hlexeme
  exact absurd hlexeme (by decide)

theorem closing_kind {wanted : Mark} (h : (Lexeme.mark wanted).closesType = true) :
    Closing more (.kind (mark wanted) :: goals) := by
  intro lexeme hlexeme
  have hkind : lexeme.kind ≠ mark wanted := by
    intro hkind
    rw [Lexeme.kind_eq_mark_iff.1 hkind, h] at hlexeme
    exact absurd hlexeme (by decide)
  rw [step, Goal.next, if_neg hkind]
  rfl

theorem closing_offset :
    Closing more (.maybe .atSign [integer] :: .separator .members :: goals) := by
  intro lexeme hlexeme
  have hkind : ∀ closing : Mark, (Lexeme.mark closing).closesType = true →
      lexeme.kind ≠ mark closing := by
    intro closing hclosing hkind
    rw [Lexeme.kind_eq_mark_iff.1 hkind, hclosing] at hlexeme
    exact absurd hlexeme (by decide)
  rw [step_maybe (hkind .atSign rfl), step, Goal.next, if_neg (hkind .comma rfl),
    if_neg (hkind .closeBrace rfl)]
  rfl

/-- Assumes: goals that take only a token that may stand behind a type. A token that may not is
theirs to blame. -/
theorem Explains.closeType {after : α → List Goal} {x : Except Fault (α × List Token)}
    (hgoals : Closing more goals) (hx : Explains stop more goals tokens after x) :
    Explains stop more goals tokens after (Descriptor.closeType stop tokens >>= fun _ ↦ x) := by
  unfold Descriptor.closeType
  cases tokens with
  | nil =>
    cases stop with
    | none => exact hx
    | some fault => exact fun _ _ ↦ if_neg fun hend ↦ absurd hend.1 (by simp)
  | cons token rest =>
    dsimp only
    split
    · exact hx
    · next hcloses =>
      refine .refused (syntaxFault?_of_step_eq_none (hgoals _ ?_))
      exact Bool.eq_false_iff.2 hcloses

/-! ### Faults of meaning -/

section Meaning

variable {definitions : Definitions}

theorem notGrammar_ok (a : α) : NotGrammar (.ok a) := fun _ ↦ by simp

theorem notGrammar_typeNamed (name : String) : NotGrammar (typeNamed definitions name) := by
  intro cause
  unfold typeNamed
  split
  · simp
  · split <;> simp

theorem notGrammar_sized (name : String) (width : Int) : NotGrammar (sized name width) := by
  intro cause
  unfold sized
  repeat' split
  all_goals simp

theorem notGrammar_arrayOf (element : ElementType) (length : Int) :
    NotGrammar (arrayOf element length) := by
  intro cause
  unfold arrayOf
  repeat' split
  all_goals simp

theorem notGrammar_numbered (next : Int) (used : List String) (specs : List ConstantSpec) :
    NotGrammar (numbered next used specs) := by
  induction specs generalizing next used with
  | nil => exact notGrammar_ok _
  | cons spec rest ih =>
    intro cause h
    rw [numbered] at h
    split at h
    · exact absurd h (by simp)
    · dsimp only at h
      split at h
      · exact absurd h (by simp)
      · next hfault => exact ih _ _ cause (hfault.trans (congrArg _ (Except.error.inj h)))

theorem notGrammar_enumOf (backing : String) (specs : List ConstantSpec) :
    NotGrammar (enumOf backing specs) := by
  intro cause h
  unfold enumOf at h
  split at h
  · exact absurd h (by simp)
  · split at h
    · exact absurd h (by simp)
    · next hfault =>
      exact notGrammar_numbered _ _ _ cause (hfault.trans (congrArg _ (Except.error.inj h)))

theorem notGrammar_placed (next : Int) (used : List String) (specs : List MemberSpec) :
    NotGrammar (placed next used specs) := by
  induction specs generalizing next used with
  | nil => exact notGrammar_ok _
  | cons spec rest ih =>
    intro cause h
    rw [placed] at h
    split at h
    · exact absurd h (by simp)
    · dsimp only at h
      split at h
      · exact absurd h (by simp)
      · split at h
        · exact absurd h (by simp)
        · next hfault => exact ih _ _ cause (hfault.trans (congrArg _ (Except.error.inj h)))

theorem notGrammar_compoundOf (specs : List MemberSpec) : NotGrammar (compoundOf specs) := by
  intro cause h
  unfold compoundOf at h
  split at h
  · next hfault =>
    exact notGrammar_placed _ _ _ cause (hfault.trans (congrArg _ (Except.error.inj h)))
  · split at h
    · exact absurd h (by simp)
    · exact absurd h (by simp)

theorem notGrammar_define (name : String) (type : ElementType) :
    NotGrammar (define definitions name type) := by
  intro cause
  unfold define
  split <;> simp

end Meaning

/-! ### Phrases -/

section Phrases

variable {definitions : Definitions} {bound : Nat} {first : Bool}

theorem explains_constants (hbound : tokens.length ≤ bound)
    (hfirst : first = false → ∀ token ∈ tokens.head?, token.lexeme.kind ≠ mark .closeBrace) :
    Explains stop more (.items .constants first :: goals) tokens (fun _ ↦ goals)
      (constants stop bound tokens) := by
  induction bound generalizing tokens first with
  | zero =>
    obtain rfl := List.length_eq_zero_iff.1 (Nat.le_zero.1 hbound)
    exact .refused (syntaxFault?_of_next rfl fun _ h ↦ absurd h (by simp))
  | succ bound ih =>
    rw [constants]
    refine .bind (takes_identifier.explains_items hfirst) fun name tokens₁ hname _ ↦ ?_
    refine .bind (explains_takeOptional .equals) fun value? tokens₂ _ h₂ ↦ ?_
    refine .bind (explains_takeSeparator .constants) fun again tokens₃ hagain h₃ ↦ ?_
    cases again with
    | false => exact .ok _ rfl
    | true =>
      have h₁ := takes_identifier.length_lt hname
      exact .bind (ih (by omega) fun _ ↦ ne_closeBrace_of_takeSeparator hagain)
        fun others rest _ _ ↦ .ok _ rfl

/-- The goals explain what is read within a bound. -/
structure ExplainsWithin (stop : Option Fault) (more : Bool) (definitions : Definitions)
    (bound : Nat) : Prop where
  /-- A type expression, behind which no goal takes what cannot stand there. -/
  type : ∀ {goals : List Goal} {tokens : List Token}, Closing more goals → tokens.length ≤ bound →
    Explains stop more (.type :: goals) tokens (fun _ ↦ goals)
      (typeExpr stop definitions bound tokens)
  /-- A list of members up to its closing brace. -/
  members : ∀ {goals : List Goal} {tokens : List Token} {first : Bool}, tokens.length ≤ bound →
    (first = false → ∀ token ∈ tokens.head?, token.lexeme.kind ≠ mark .closeBrace) →
      Explains stop more (.items .members first :: goals) tokens (fun _ ↦ goals)
        (members stop definitions bound tokens)

/-- One more step into a type expression. -/
theorem ExplainsWithin.type_succ (ih : ExplainsWithin stop more definitions bound)
    (hgoals : Closing more goals) (hbound : tokens.length ≤ bound + 1) :
    Explains stop more (.type :: goals) tokens (fun _ ↦ goals)
      (typeExpr stop definitions (bound + 1) tokens) := by
  rw [typeExpr.eq_def]
  dsimp only
  split
  · -- a name with a width
    refine .step (step_of_next rfl) (.step (step_of_next (next_maybe _ _)) ?_)
    refine .bind takes_integer.explains_kind fun width tokens₁ _ _ ↦ ?_
    refine .bind (takes_mark .closeParen).explains_kind fun _ tokens₂ _ _ ↦ ?_
    exact .closeType hgoals (.meaning (notGrammar_sized _ _))
  · -- a name alone
    next hparen =>
    refine .step (step_of_next rfl) (.maybe (fun token htoken hkind ↦ ?_) ?_)
    · obtain ⟨others, rfl⟩ := List.head?_eq_some_iff.1 htoken
      exact hparen token.position others (cons_eq_of_lexeme (Lexeme.kind_eq_mark_iff.1 hkind))
    · exact .closeType hgoals (.meaning (notGrammar_typeNamed _))
  · -- a sequence
    refine .step (step_of_next rfl) ?_
    refine .bind (takes_mark .less).explains_kind fun _ tokens₁ _ h₁ ↦ ?_
    refine .bind (ih.type (closing_kind rfl) ?_) fun element tokens₂ _ _ ↦ ?_
    · exact h₁.trans (Nat.le_of_succ_le_succ hbound)
    refine .bind (takes_mark .greater).explains_kind fun _ tokens₃ _ _ ↦ ?_
    exact .closeType hgoals (.ok _ rfl)
  · -- an array
    refine .step (step_of_next rfl) ?_
    refine .bind (takes_mark .less).explains_kind fun _ tokens₁ _ h₁ ↦ ?_
    refine .bind (ih.type (closing_kind rfl) ?_) fun element tokens₂ _ _ ↦ ?_
    · exact h₁.trans (Nat.le_of_succ_le_succ hbound)
    refine .bind (takes_mark .comma).explains_kind fun _ tokens₃ _ _ ↦ ?_
    refine .bind takes_integer.explains_kind fun length tokens₄ _ _ ↦ ?_
    refine .bind (takes_mark .greater).explains_kind fun _ tokens₅ _ _ ↦ ?_
    exact .closeType hgoals (.meaning (notGrammar_arrayOf _ _))
  · -- an enumeration
    refine .step (step_of_next rfl) ?_
    refine .bind (takes_mark .less).explains_kind fun _ tokens₁ _ h₁ ↦ ?_
    refine .bind takes_identifier.explains_kind fun backing tokens₂ _ h₂ ↦ ?_
    refine .bind (takes_mark .greater).explains_kind fun _ tokens₃ _ h₃ ↦ ?_
    refine .bind (takes_mark .openBrace).explains_kind fun _ tokens₄ _ h₄ ↦ ?_
    refine .bind (explains_constants ?_ fun h ↦ absurd h (by simp)) fun specs tokens₅ _ _ ↦ ?_
    · exact (h₄.trans (h₃.trans (h₂.trans h₁))).trans (Nat.le_of_succ_le_succ hbound)
    exact .closeType hgoals (.meaning (notGrammar_enumOf _ _))
  · -- a compound
    refine .step (step_of_next rfl) ?_
    refine .bind (takes_mark .openBrace).explains_kind fun _ tokens₁ _ h₁ ↦ ?_
    refine .bind (ih.members ?_ fun h ↦ absurd h (by simp)) fun specs tokens₂ _ _ ↦ ?_
    · exact h₁.trans (Nat.le_of_succ_le_succ hbound)
    exact .closeType hgoals (.meaning (notGrammar_compoundOf _))
  · -- no type begins with this token
    next hname hvlen harray henum hcompound =>
    refine .refused (syntaxFault?_of_next rfl fun token htoken ↦ ?_)
    obtain ⟨others, rfl⟩ := List.head?_eq_some_iff.1 htoken
    rcases token with ⟨name | value | word | found, position⟩
    · exact absurd rfl (hname name position others)
    · rfl
    · cases word with
      | define => rfl
      | as => rfl
      | vlen => exact absurd rfl (hvlen position others)
      | array => exact absurd rfl (harray position others)
      | enum => exact absurd rfl (henum position others)
      | compound => exact absurd rfl (hcompound position others)
    · rfl

/-- One more step into a list of members. -/
theorem ExplainsWithin.members_succ (ih : ExplainsWithin stop more definitions bound)
    (hbound : tokens.length ≤ bound + 1)
    (hfirst : first = false → ∀ token ∈ tokens.head?, token.lexeme.kind ≠ mark .closeBrace) :
    Explains stop more (.items .members first :: goals) tokens (fun _ ↦ goals)
      (Descriptor.members stop definitions (bound + 1) tokens) := by
  rw [Descriptor.members]
  refine .bind (takes_identifier.explains_items hfirst) fun name tokens₁ hname _ ↦ ?_
  have h₁ := takes_identifier.length_lt hname
  refine .bind (takes_mark .colon).explains_kind fun _ tokens₂ _ h₂ ↦ ?_
  refine .bind (ih.type closing_offset (by omega)) fun type tokens₃ _ h₃ ↦ ?_
  refine .bind (explains_takeOptional .atSign) fun offset? tokens₄ _ h₄ ↦ ?_
  refine .bind (explains_takeSeparator .members) fun again tokens₅ hagain h₅ ↦ ?_
  cases again with
  | false => exact .ok _ rfl
  | true =>
    exact .bind (ih.members (by omega) fun _ ↦ ne_closeBrace_of_takeSeparator hagain)
      fun others rest _ _ ↦ .ok _ rfl

theorem explainsWithin (bound : Nat) : ExplainsWithin stop more definitions bound := by
  induction bound with
  | zero =>
    refine ⟨fun _ hbound ↦ ?_, fun hbound _ ↦ ?_⟩ <;>
      obtain rfl := List.length_eq_zero_iff.1 (Nat.le_zero.1 hbound)
    · exact .refused (syntaxFault?_of_next rfl fun _ h ↦ absurd h (by simp))
    · exact .refused (syntaxFault?_of_next rfl fun _ h ↦ absurd h (by simp))
  | succ bound ih => exact ⟨ih.type_succ, ih.members_succ⟩

end Phrases

end Stowage.Descriptor
