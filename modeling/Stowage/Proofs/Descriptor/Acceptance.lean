import Stowage.Proofs.Descriptor.Recognition

/-!
# What is recognized is derived

Each goal has words that meet it. For a token, a type expression or a list these are derived from
the grammar; behind some items of a list they are what makes the list complete (`Goal.meets`). With
a token that fits the goal in front, the words that meet what is left of a goal meet the goal
(`mem_meets_of_next`). So recognized tokens are derived, and the recognized documents are those of
the grammar (`mem_language_iff`).
-/

set_option autoImplicit false

namespace Stowage.Descriptor

open Symbol (terminal nonterminal)
open TokenKind (identifier integer keyword mark)

variable {more : Bool} {goals left : List Goal} {found : TokenKind}

/-! ### Phrases of the grammar -/

section Derived

variable {body : Body} {w : List TokenKind}

/-- A list of items with its closing brace, and perhaps a comma before it. -/
def block (body : Body) : Language TokenKind :=
  {w | ∃ p ∈ derived (.list body),
    w = p ++ [mark .closeBrace] ∨ w = p ++ [mark .comma, mark .closeBrace]}

theorem derived_name : [identifier] ∈ derived .type :=
  mem_derived (show [terminal identifier] ∈ alternatives .type by decide) (by simp)

theorem derived_sized :
    [identifier, mark .openParen, integer, mark .closeParen] ∈ derived .type :=
  mem_derived (show [terminal identifier, terminal (mark .openParen), terminal integer,
    terminal (mark .closeParen)] ∈ alternatives .type by decide) (by simp)

theorem derived_vlen (h : w ∈ derived .type) :
    keyword .vlen :: mark .less :: (w ++ [mark .greater]) ∈ derived .type :=
  mem_derived (show [terminal (keyword .vlen), terminal (mark .less), nonterminal .type,
    terminal (mark .greater)] ∈ alternatives .type by decide) (by simp [h])

theorem derived_array (h : w ∈ derived .type) :
    keyword .array :: mark .less :: (w ++ [mark .comma, integer, mark .greater]) ∈
      derived .type :=
  mem_derived (show [terminal (keyword .array), terminal (mark .less), nonterminal .type,
    terminal (mark .comma), terminal integer, terminal (mark .greater)] ∈ alternatives .type by
      decide) (by simp [h])

theorem derived_enum (h : w ∈ block .constants) :
    keyword .enum :: mark .less :: identifier :: mark .greater :: mark .openBrace :: w ∈
      derived .type := by
  obtain ⟨p, hp, rfl | rfl⟩ := h
  · exact mem_derived (show [terminal (keyword .enum), terminal (mark .less), terminal identifier,
      terminal (mark .greater), terminal (mark .openBrace), nonterminal (.list .constants),
      terminal (mark .closeBrace)] ∈ alternatives .type by decide) (by simp [hp])
  · exact mem_derived (show [terminal (keyword .enum), terminal (mark .less), terminal identifier,
      terminal (mark .greater), terminal (mark .openBrace), nonterminal (.list .constants),
      terminal (mark .comma), terminal (mark .closeBrace)] ∈ alternatives .type by decide)
      (by simp [hp])

theorem derived_compound (h : w ∈ block .members) :
    keyword .compound :: mark .openBrace :: w ∈ derived .type := by
  obtain ⟨p, hp, rfl | rfl⟩ := h
  · exact mem_derived (show [terminal (keyword .compound), terminal (mark .openBrace),
      nonterminal (.list .members), terminal (mark .closeBrace)] ∈ alternatives .type by decide)
      (by simp [hp])
  · exact mem_derived (show [terminal (keyword .compound), terminal (mark .openBrace),
      nonterminal (.list .members), terminal (mark .comma), terminal (mark .closeBrace)] ∈
        alternatives .type by decide) (by simp [hp])

theorem derived_single (h : w ∈ derived (.item body)) : w ∈ derived (.list body) :=
  mem_derived (show [nonterminal (.item body)] ∈ alternatives (.list body) by simp [alternatives])
    (by simp [h])

theorem derived_more {p : List TokenKind} (hp : p ∈ derived (.list body))
    (h : w ∈ derived (.item body)) : p ++ mark .comma :: w ∈ derived (.list body) := by
  have houtput : [nonterminal (.list body), terminal (mark .comma), nonterminal (.item body)] ∈
      alternatives (.list body) := by simp [alternatives]
  refine mem_derived houtput (mem_words_nonterminal.2 ⟨p, hp, _, ?_, rfl⟩)
  simp [h]

theorem derived_constant {v : List TokenKind} (h : v = [] ∨ v = [mark .equals, integer]) :
    identifier :: v ∈ derived (.item .constants) := by
  rcases h with rfl | rfl
  · exact mem_derived (show [terminal identifier] ∈ alternatives (.item .constants) by decide)
      (by simp)
  · exact mem_derived (show [terminal identifier, terminal (mark .equals), terminal integer] ∈
      alternatives (.item .constants) by decide) (by simp)

theorem derived_member {v : List TokenKind} (hw : w ∈ derived .type)
    (h : v = [] ∨ v = [mark .atSign, integer]) :
    identifier :: mark .colon :: (w ++ v) ∈ derived (.item .members) := by
  rcases h with rfl | rfl
  · exact mem_derived (show [terminal identifier, terminal (mark .colon), nonterminal .type] ∈
      alternatives (.item .members) by decide) (by simp [hw])
  · exact mem_derived (show [terminal identifier, terminal (mark .colon), nonterminal .type,
      terminal (mark .atSign), terminal integer] ∈ alternatives (.item .members) by decide)
      (by simp [hw])

theorem derived_definition (h : w ∈ derived .type) :
    keyword .define :: identifier :: keyword .as :: w ∈ derived .definition :=
  mem_derived (show [terminal (keyword .define), terminal identifier, terminal (keyword .as),
    nonterminal .type] ∈ alternatives .definition by decide) (by simp [h])

theorem derived_definitions (h : w ∈ derived .definition) : w ∈ derived .definitions :=
  mem_derived (show [nonterminal .definition] ∈ alternatives .definitions by decide) (by simp [h])

theorem derived_moreDefinitions {p : List TokenKind} (hp : p ∈ derived .definitions)
    (h : w ∈ derived .definition) : p ++ w ∈ derived .definitions :=
  mem_derived (show [nonterminal .definitions, nonterminal .definition] ∈
    alternatives .definitions by decide) (mem_words_nonterminal.2 ⟨p, hp, w, by simp [h], rfl⟩)

end Derived

/-! ### Meeting goals -/

/-- The words that meet a goal. Behind items of a list, it is what makes the list complete. -/
def Goal.meets : Goal → Language TokenKind
  | .kind wanted => {[wanted]}
  | .type => derived .type
  | .maybe first after => {w | w = [] ∨ w = mark first :: after}
  | .items body true => block body
  | .items body false => {w | ∀ p ∈ derived (.list body), p ++ mark .comma :: w ∈ block body}
  | .separator body => {w | ∀ p ∈ derived (.list body), p ++ w ∈ block body}

/-- The words that meet goals one after another. -/
def meets (goals : List Goal) : Language TokenKind := (goals.map Goal.meets).prod

section Meets

variable {goal : Goal} {w : List TokenKind}

theorem mem_meets_nil : w ∈ meets [] ↔ w = [] := Language.mem_one w

theorem mem_meets_cons : w ∈ meets (goal :: goals) ↔
    ∃ u ∈ goal.meets, ∃ v ∈ meets goals, u ++ v = w := by
  rw [meets, List.map_cons, List.prod_cons]
  exact Language.mem_mul

theorem mem_meets_kind {wanted : TokenKind} : w ∈ meets (.kind wanted :: goals) ↔
    ∃ v ∈ meets goals, wanted :: v = w := by
  rw [mem_meets_cons]
  constructor
  · rintro ⟨_, rfl, v, hv, rfl⟩
    exact ⟨v, hv, rfl⟩
  · rintro ⟨v, hv, rfl⟩
    exact ⟨[wanted], rfl, v, hv, rfl⟩

theorem mem_meets_kinds {after : List TokenKind} : w ∈ meets (after.map .kind) ↔ w = after := by
  induction after generalizing w with
  | nil => exact mem_meets_nil
  | cons wanted after ih =>
    rw [List.map_cons, mem_meets_kind]
    simp only [ih, exists_eq_left]
    exact eq_comm

theorem mem_meets_singleton : w ∈ meets [goal] ↔ w ∈ goal.meets := by
  rw [mem_meets_cons]
  simp [mem_meets_nil]

/-- What meets the goals left of an item, behind its name, meets its separator behind the item. -/
theorem exists_item_of_mem_meets {body : Body} (h : w ∈ meets body.rest) :
    ∃ v u, w = v ++ u ∧ identifier :: v ∈ derived (.item body) ∧
      u ∈ (Goal.separator body).meets := by
  cases body with
  | constants =>
    obtain ⟨v, hv, _, hu, rfl⟩ := mem_meets_cons.1 h
    exact ⟨v, _, rfl, derived_constant hv, mem_meets_singleton.1 hu⟩
  | members =>
    obtain ⟨_, htyped, rfl⟩ := mem_meets_kind.1 h
    obtain ⟨type, htype, _, hoffset, rfl⟩ := mem_meets_cons.1 htyped
    obtain ⟨v, hv, _, hu, rfl⟩ := mem_meets_cons.1 hoffset
    exact ⟨mark .colon :: (type ++ v), _, by simp, derived_member htype hv,
      mem_meets_singleton.1 hu⟩

/-- A token that begins a type expression, with what meets the goals that are left of it. -/
theorem mem_derived_of_typeGoals {first : List Goal} (h : typeGoals found = some first)
    (hw : w ∈ meets first) : found :: w ∈ derived .type := by
  unfold typeGoals at h
  split at h
  · -- a name
    obtain rfl := Option.some.inj h
    rcases mem_meets_singleton.1 hw with rfl | rfl
    · exact derived_name
    · exact derived_sized
  · -- a sequence
    obtain rfl := Option.some.inj h
    obtain ⟨_, helement, rfl⟩ := mem_meets_kind.1 hw
    obtain ⟨u, hu, _, hgreater, rfl⟩ := mem_meets_cons.1 helement
    obtain rfl := mem_meets_singleton.1 hgreater
    exact derived_vlen hu
  · -- an array
    obtain rfl := Option.some.inj h
    obtain ⟨_, helement, rfl⟩ := mem_meets_kind.1 hw
    obtain ⟨u, hu, _, hlength, rfl⟩ := mem_meets_cons.1 helement
    obtain rfl := (@mem_meets_kinds _ [mark .comma, integer, mark .greater]).1 hlength
    exact derived_array hu
  · -- an enumeration
    obtain rfl := Option.some.inj h
    obtain ⟨_, hless, rfl⟩ := mem_meets_kind.1 hw
    obtain ⟨_, hbacking, rfl⟩ := mem_meets_kind.1 hless
    obtain ⟨_, hgreater, rfl⟩ := mem_meets_kind.1 hbacking
    obtain ⟨_, hopen, rfl⟩ := mem_meets_kind.1 hgreater
    exact derived_enum (mem_meets_singleton.1 hopen)
  · -- a compound
    obtain rfl := Option.some.inj h
    obtain ⟨_, hopen, rfl⟩ := mem_meets_kind.1 hw
    exact derived_compound (mem_meets_singleton.1 hopen)
  · exact absurd h (by simp)

/-- Assumes: a token that fits a goal. With what meets the goals that are left it meets the goal. -/
theorem mem_meets_of_next {first : List Goal} (h : goal.next found = some first)
    (hw : w ∈ meets first) : found :: w ∈ goal.meets := by
  cases goal with
  | kind wanted =>
    obtain ⟨rfl, hfirst⟩ := Option.ite_none_right_eq_some.1 h
    obtain rfl := Option.some.inj hfirst
    obtain rfl := mem_meets_nil.1 hw
    rfl
  | type => exact mem_derived_of_typeGoals h hw
  | maybe mark after =>
    obtain ⟨rfl, hfirst⟩ := Option.ite_none_right_eq_some.1 h
    obtain rfl := Option.some.inj hfirst
    exact .inr (congrArg _ (mem_meets_kinds.1 hw))
  | items body first =>
    rw [Goal.next] at h
    split at h
    · next hname =>
      obtain rfl := Option.some.inj h
      obtain ⟨v, u, rfl, hitem, hu⟩ := exists_item_of_mem_meets hw
      subst hname
      cases first with
      | true => exact hu _ (derived_single hitem)
      | false =>
        intro p hp
        have hmore := hu _ (derived_more hp hitem)
        rwa [List.append_assoc] at hmore
    · obtain ⟨⟨rfl, rfl⟩, hfirst⟩ := Option.ite_none_right_eq_some.1 h
      obtain rfl := Option.some.inj hfirst
      obtain rfl := mem_meets_nil.1 hw
      exact fun p hp ↦ ⟨p, hp, .inr rfl⟩
  | separator body =>
    rw [Goal.next] at h
    split at h
    · next hcomma =>
      obtain rfl := Option.some.inj h
      have hmore : w ∈ (Goal.items body false).meets := mem_meets_singleton.1 hw
      subst hcomma
      exact hmore
    · obtain ⟨rfl, hfirst⟩ := Option.ite_none_right_eq_some.1 h
      obtain rfl := Option.some.inj hfirst
      obtain rfl := mem_meets_nil.1 hw
      exact fun p hp ↦ ⟨p, hp, .inl rfl⟩

theorem meets_append (first second : List Goal) :
    meets (first ++ second) = meets first * meets second := by
  rw [meets, List.map_append, List.prod_append, meets, meets]

/-- A goal that may be left out is met by nothing. -/
theorem nil_mem_meets (h : goal.isOptional = true) : [] ∈ goal.meets := by
  cases goal with
  | maybe => exact .inl rfl
  | _ => exact absurd h (by simp [Goal.isOptional])

end Meets

/-- What may come when no goal is left: nothing, or more definitions. -/
def ending (more : Bool) : Language TokenKind :=
  if more then {w | ∀ p ∈ derived .definitions, p ++ w ∈ derived .definitions} else 1

theorem nil_mem_ending (more : Bool) : [] ∈ ending more := by
  cases more with
  | true => exact fun p hp ↦ (List.append_nil p).symm ▸ hp
  | false => exact Language.nil_mem_one

/-- What meets the goals of a definition, and then may end, may end behind a definition. -/
theorem exists_definition_of_mem {w : List TokenKind}
    (h : w ∈ meets definitionGoals * ending true) :
    ∃ v u, w = v ++ u ∧ keyword .define :: v ∈ derived .definition ∧ u ∈ ending true := by
  obtain ⟨_, hgoals, u, hu, rfl⟩ := Language.mem_mul.1 h
  obtain ⟨_, has, rfl⟩ := mem_meets_kind.1 hgoals
  obtain ⟨_, htype, rfl⟩ := mem_meets_kind.1 has
  exact ⟨_, u, rfl, derived_definition (mem_meets_singleton.1 htype), hu⟩

/-- Assumes: a token that can follow. With what meets the goals that are left, and then may end, it
meets the goals. -/
theorem mem_meets_of_step {w : List TokenKind} (h : step more goals found = some left)
    (hw : w ∈ meets left * ending more) : found :: w ∈ meets goals * ending more := by
  induction goals with
  | nil =>
    obtain ⟨⟨rfl, rfl⟩, hleft⟩ := Option.ite_none_right_eq_some.1 h
    obtain rfl := Option.some.inj hleft
    obtain ⟨v, u, rfl, hdefinition, hu⟩ := exists_definition_of_mem hw
    refine Language.mem_mul.2 ⟨[], mem_meets_nil.2 rfl, _, fun p hp ↦ ?_, rfl⟩
    have hmore := hu _ (derived_moreDefinitions hp hdefinition)
    rwa [List.append_assoc] at hmore
  | cons goal goals ih =>
    rw [step] at h
    split at h
    · next first hfirst =>
      obtain rfl := Option.some.inj h
      rw [meets_append, mul_assoc] at hw
      obtain ⟨u, hu, v, hv, rfl⟩ := Language.mem_mul.1 hw
      rw [meets, List.map_cons, List.prod_cons, mul_assoc]
      exact Language.mem_mul.2 ⟨_, mem_meets_of_next hfirst hu, v, hv, rfl⟩
    · obtain ⟨hoptional, hstep⟩ := Option.ite_none_right_eq_some.1 h
      rw [meets, List.map_cons, List.prod_cons, mul_assoc]
      exact Language.mem_mul.2 ⟨[], nil_mem_meets hoptional, _, ih hstep, rfl⟩

/-- Accepted tokens meet the goals, and then may end. -/
theorem mem_meets_of_accepts {w : List TokenKind} (h : accepts more goals w = true) :
    w ∈ meets goals * ending more := by
  induction w generalizing goals with
  | nil =>
    refine Language.mem_mul.2 ⟨[], ?_, [], nil_mem_ending more, rfl⟩
    induction goals with
    | nil => exact mem_meets_nil.2 rfl
    | cons goal goals ih =>
      rw [accepts, List.all_cons, Bool.and_eq_true] at h
      obtain ⟨hgoal, hgoals⟩ := h
      exact mem_meets_cons.2 ⟨[], nil_mem_meets hgoal, [], ih hgoals, rfl⟩
  | cons found rest ih =>
    rw [accepts] at h
    split at h
    · next left hleft => exact mem_meets_of_step hleft (ih h)
    · exact absurd h (by simp)

/-- The documents of the grammar are those that are recognized. -/
theorem mem_language_iff {w : List TokenKind} : w ∈ grammar.language ↔ isDocument w = true := by
  refine ⟨isDocument_of_mem_language, fun h ↦ ?_⟩
  rw [isDocument] at h
  rw [language_eq]
  split at h
  · next hdefine =>
    obtain ⟨rest, rfl⟩ := List.head?_eq_some_iff.1 hdefine
    rw [accepts_cons_of_step (show step true [] (keyword .define) = some definitionGoals from rfl)]
      at h
    obtain ⟨v, u, rfl, hdefinition, hu⟩ := exists_definition_of_mem (mem_meets_of_accepts h)
    exact mem_derived (show [nonterminal .definitions] ∈ alternatives .document by decide)
      (by simpa using hu _ (derived_definitions hdefinition))
  · obtain ⟨u, hu, v, hv, rfl⟩ := Language.mem_mul.1 (mem_meets_of_accepts h)
    obtain rfl := (Language.mem_one v).1 hv
    have htype : u ∈ derived .type := mem_meets_singleton.1 hu
    rw [List.append_nil]
    exact mem_derived (show [nonterminal .type] ∈ alternatives .document by decide)
      (by simp [htype])

end Stowage.Descriptor
