import Stowage.Proofs.Descriptor.Grammar
import Mathlib.Data.List.Nodup

/-!
# The meaning functions agree with the grammar

Each function that gives a phrase its meaning succeeds exactly when the grammar gives it one, and
then with that type. For a name this needs that no name has two types (`Unambiguous`), which holds
before any definition and is kept by every definition; for a compound it needs that the types of
the members are well-formed, because members that take no bytes never overlap.
-/

set_option autoImplicit false

namespace Stowage

theorem NumberType.ofName?_eq_some_iff {name : String} {number : NumberType} :
    ofName? name = some number ↔ number.name = name := by
  constructor
  · intro h
    simpa using List.find?_some h
  · rintro rfl
    exact ofName?_name number

namespace Descriptor

variable {definitions : Definitions} {name : String} {type : ElementType}

/-! ### Names -/

theorem builtin?_eq_some_iff : builtin? name = some type ↔ Builtin name type := by
  constructor
  · intro h
    unfold builtin? at h
    split at h
    · next number hnumber =>
      rw [← Option.some.inj h, ← NumberType.ofName?_eq_some_iff.1 hnumber]
      exact .number number
    · split at h
      · next hname => exact Option.some.inj h ▸ hname ▸ .string
      · split at h
        · next hname => exact Option.some.inj h ▸ hname ▸ .reference
        · exact absurd h (by simp)
  · rintro (number | _ | _)
    · rw [builtin?, NumberType.ofName?_name]
    · rfl
    · rfl

theorem named_of_typeNamed (h : typeNamed definitions name = .ok type) :
    Named definitions name type := by
  unfold typeNamed at h
  split at h
  · next hbuiltin => exact .builtin (builtin?_eq_some_iff.1 (Except.ok.inj h ▸ hbuiltin))
  · split at h
    · next defined found hfind =>
      obtain rfl := Except.ok.inj h
      have hname : defined = name := by simpa using List.find?_some hfind
      exact .defined (hname ▸ List.mem_of_find?_eq_some hfind)
    · exact absurd h (by simp)

theorem exists_typeNamed (h : Named definitions name type) :
    ∃ found, typeNamed definitions name = .ok found := by
  unfold typeNamed
  split
  · exact ⟨_, rfl⟩
  · next hbuiltin =>
    split
    · exact ⟨_, rfl⟩
    · next hfind =>
      rcases h with h | h
      · rw [builtin?_eq_some_iff.2 h] at hbuiltin
        exact absurd hbuiltin (by simp)
      · exact absurd (List.find?_eq_none.1 hfind _ h) (by simp)

/-- No name has two types. -/
def Unambiguous (definitions : Definitions) : Prop :=
  ∀ name first second, Named definitions name first → Named definitions name second →
    first = second

theorem typeNamed_eq_ok_iff (h : Unambiguous definitions) :
    typeNamed definitions name = .ok type ↔ Named definitions name type := by
  refine ⟨named_of_typeNamed, fun hnamed ↦ ?_⟩
  obtain ⟨found, hfound⟩ := exists_typeNamed hnamed
  rw [hfound, h name found type (named_of_typeNamed hfound) hnamed]

theorem named_nil_iff : Named [] name type ↔ Builtin name type := by
  constructor
  · rintro (h | h)
    · exact h
    · exact absurd h List.not_mem_nil
  · exact .builtin

theorem unambiguous_nil : Unambiguous [] := by
  intro name first second hfirst hsecond
  rw [named_nil_iff, ← builtin?_eq_some_iff] at hfirst hsecond
  exact Option.some.inj (hfirst.symm.trans hsecond)

theorem named_concat_iff {added : String × ElementType} :
    Named (definitions ++ [added]) name type ↔
      Named definitions name type ∨ (name, type) = added := by
  constructor
  · rintro (h | h)
    · exact .inl (.builtin h)
    · rcases List.mem_append.1 h with h | h
      · exact .inl (.defined h)
      · exact .inr (List.mem_singleton.1 h)
  · rintro ((h | h) | h)
    · exact .builtin h
    · exact .defined (List.mem_append_left _ h)
    · exact .defined (List.mem_append_right _ (List.mem_singleton.2 h))

/-- A definition of a free name leaves no name with two types. -/
theorem Unambiguous.concat (h : Unambiguous definitions) (hfree : Free definitions name)
    (type : ElementType) : Unambiguous (definitions ++ [(name, type)]) := by
  intro other first second hfirst hsecond
  rcases named_concat_iff.1 hfirst with hfirstOld | hfirstNew <;>
    rcases named_concat_iff.1 hsecond with hsecondOld | hsecondNew
  · exact h other first second hfirstOld hsecondOld
  · obtain rfl := (Prod.mk.inj hsecondNew).1
    exact absurd hfirstOld (hfree first)
  · obtain rfl := (Prod.mk.inj hfirstNew).1
    exact absurd hsecondOld (hfree second)
  · exact (Prod.mk.inj hfirstNew).2.trans (Prod.mk.inj hsecondNew).2.symm

theorem free_iff :
    Free definitions name ↔
      (definitions.any (·.1 == name) || (builtin? name).isSome) = false := by
  rw [Bool.or_eq_false_iff, List.any_eq_false, Option.isSome_eq_false_iff,
    Option.isNone_iff_eq_none]
  constructor
  · intro hfree
    refine ⟨fun d hd hname ↦ hfree d.2 (.defined (eq_of_beq hname ▸ hd)), ?_⟩
    exact Option.eq_none_iff_forall_ne_some.2 fun type htype ↦
      hfree type (.builtin (builtin?_eq_some_iff.1 htype))
  · rintro ⟨hdefined, hbuiltin⟩ type (h | h)
    · rw [builtin?_eq_some_iff.2 h] at hbuiltin
      exact absurd hbuiltin (by simp)
    · exact hdefined _ h (beq_self_eq_true name)

theorem define_eq_ok_iff {found : Definitions} :
    define definitions name type = .ok found ↔
      Free definitions name ∧ definitions ++ [(name, type)] = found := by
  rw [define, free_iff]
  split
  · next h => simp [h]
  · next h => simp [h]

theorem sized_eq_ok_iff {width : Int} : sized name width = .ok type ↔ Sized width name type := by
  constructor
  · intro h
    unfold sized at h
    split at h
    · exact absurd h (by simp)
    · next hwidth =>
      have hpos : 0 < width := by omega
      split at h
      · next hname => exact Except.ok.inj h ▸ hname ▸ .string hpos
      · split at h
        · next hname => exact Except.ok.inj h ▸ hname ▸ .reference hpos
        · exact absurd h (by simp)
  · rintro (hpos | hpos)
    · rw [sized, if_neg (by omega), if_pos rfl]
    · rw [sized, if_neg (by omega), if_neg (by decide), if_pos rfl]

theorem arrayOf_eq_ok_iff {element : ElementType} {length : Int} :
    arrayOf element length = .ok type ↔
      0 < length ∧ isArrayType element = false ∧ .array element length = type := by
  rw [arrayOf]
  split
  · next hlength => simp [show ¬ 0 < length by omega]
  · next hlength =>
    split
    · next harray => simp [harray]
    · next harray => simp [harray, show 0 < length by omega]

/-! ### Names in braces -/

/-- The names differ from each other and from those already used. -/
def Fresh (used names : List String) : Prop := names.Nodup ∧ ∀ n ∈ names, n ∉ used

@[simp] theorem fresh_nil (used : List String) : Fresh used [] := ⟨.nil, by simp⟩

theorem fresh_cons_iff {used names : List String} :
    Fresh used (name :: names) ↔ used.contains name = false ∧ Fresh (name :: used) names := by
  rw [Fresh, Fresh, List.nodup_cons, List.forall_mem_cons, List.contains_eq_mem,
    decide_eq_false_iff_not]
  constructor
  · rintro ⟨⟨hname, hnodup⟩, hused, hothers⟩
    refine ⟨hused, hnodup, fun n hn hmem ↦ ?_⟩
    rcases List.mem_cons.1 hmem with rfl | hmem
    · exact hname hn
    · exact hothers n hn hmem
  · rintro ⟨hused, hnodup, hothers⟩
    exact ⟨⟨fun hname ↦ hothers name hname List.mem_cons_self, hnodup⟩, hused,
      fun n hn hmem ↦ hothers n hn (List.mem_cons_of_mem _ hmem)⟩

theorem fresh_nil_iff {names : List String} : Fresh [] names ↔ names.Nodup := by
  simp [Fresh]

theorem numbered_cons_iff {next : Int} {spec : ConstantSpec} {specs : List ConstantSpec}
    {constants : List (String × Int)} :
    Numbered next (spec :: specs) constants ↔
      ∃ others, Numbered (spec.value?.getD next + 1) specs others ∧
        (spec.name, spec.value?.getD next) :: others = constants := by
  constructor
  · rintro (_ | h | h)
    · exact ⟨_, h, rfl⟩
    · exact ⟨_, h, rfl⟩
  · obtain ⟨name, _ | value⟩ := spec
    · rintro ⟨others, h, rfl⟩
      exact .counted h
    · rintro ⟨others, h, rfl⟩
      exact .given h

theorem numbered_eq_ok_iff {next : Int} {used : List String} {specs : List ConstantSpec}
    {constants : List (String × Int)} :
    numbered next used specs = .ok constants ↔
      Numbered next specs constants ∧ Fresh used (constants.map (·.1)) := by
  induction specs generalizing next used constants with
  | nil =>
    constructor
    · intro h
      obtain rfl := Except.ok.inj h
      exact ⟨.nil next, fresh_nil used⟩
    · rintro ⟨_ | _, _⟩
      rfl
  | cons spec rest ih =>
    rw [numbered]
    constructor
    · intro h
      split at h
      · exact absurd h (by simp)
      · next hnew =>
        dsimp only at h
        split at h
        · next others hothers =>
          obtain rfl := Except.ok.inj h
          obtain ⟨hnumbered, hfresh⟩ := ih.1 hothers
          exact ⟨numbered_cons_iff.2 ⟨others, hnumbered, rfl⟩,
            fresh_cons_iff.2 ⟨Bool.eq_false_iff.2 hnew, hfresh⟩⟩
        · exact absurd h (by simp)
    · rintro ⟨hnumbered, hfresh⟩
      obtain ⟨others, hothers, rfl⟩ := numbered_cons_iff.1 hnumbered
      obtain ⟨hnew, hfresh⟩ := fresh_cons_iff.1 hfresh
      rw [if_neg (Bool.eq_false_iff.1 hnew)]
      dsimp only
      rw [ih.2 ⟨hothers, hfresh⟩]

theorem Numbered.ne_nil {next : Int} {specs : List ConstantSpec}
    {constants : List (String × Int)} (h : Numbered next specs constants) (hspecs : specs ≠ []) :
    constants ≠ [] := by
  cases h with
  | nil => exact absurd rfl hspecs
  | given | counted => exact List.cons_ne_nil _ _

theorem enumOf_eq_ok_iff {backing : String} {specs : List ConstantSpec} :
    enumOf backing specs = .ok type ↔
      ∃ (number : NumberType) (constants : List (String × Int)), number.name = backing ∧
        number.isInteger = true ∧ Numbered 0 specs constants ∧ (constants.map (·.1)).Nodup ∧
        .enum number constants = type := by
  have hbacking : ∀ number, (NumberType.ofName? backing).filter (·.isInteger) = some number ↔
      number.name = backing ∧ number.isInteger = true := by
    intro number
    rw [Option.filter_eq_some_iff, NumberType.ofName?_eq_some_iff]
  rw [enumOf]
  constructor
  · intro h
    split at h
    · exact absurd h (by simp)
    · next number hnumber =>
      split at h
      · next constants hconstants =>
        obtain ⟨hnumbered, hfresh⟩ := numbered_eq_ok_iff.1 hconstants
        obtain ⟨hname, hinteger⟩ := (hbacking number).1 hnumber
        exact ⟨number, constants, hname, hinteger, hnumbered, fresh_nil_iff.1 hfresh,
          Except.ok.inj h⟩
      · exact absurd h (by simp)
  · rintro ⟨number, constants, hname, hinteger, hnumbered, hnames, rfl⟩
    rw [(hbacking number).2 ⟨hname, hinteger⟩]
    dsimp only
    rw [numbered_eq_ok_iff.2 ⟨hnumbered, fresh_nil_iff.2 hnames⟩]

/-! ### Members -/

theorem laidOut_cons_iff {next : Int} {spec : MemberSpec} {specs : List MemberSpec}
    {members : List Member} :
    LaidOut next (spec :: specs) members ↔
      ∃ others, LaidOut (spec.offset?.getD next + spec.type.size) specs others ∧
        ⟨spec.name, spec.offset?.getD next, spec.type⟩ :: others = members := by
  constructor
  · rintro (_ | h | h)
    · exact ⟨_, h, rfl⟩
    · exact ⟨_, h, rfl⟩
  · obtain ⟨name, type, _ | offset⟩ := spec
    · rintro ⟨others, h, rfl⟩
      exact .following h
    · rintro ⟨others, h, rfl⟩
      exact .given h

theorem placed_eq_ok_iff {next : Int} {used : List String} {specs : List MemberSpec}
    {members : List Member} :
    placed next used specs = .ok members ↔
      LaidOut next specs members ∧ Fresh used (members.map (·.name)) ∧
        ∀ m ∈ members, 0 ≤ m.offset := by
  induction specs generalizing next used members with
  | nil =>
    constructor
    · intro h
      obtain rfl := Except.ok.inj h
      exact ⟨.nil next, fresh_nil used, by simp⟩
    · rintro ⟨_ | _, _⟩
      rfl
  | cons spec rest ih =>
    rw [placed]
    constructor
    · intro h
      split at h
      · exact absurd h (by simp)
      · next hnew =>
        dsimp only at h
        split at h
        · exact absurd h (by simp)
        · next hoffset =>
          split at h
          · next others hothers =>
            obtain rfl := Except.ok.inj h
            obtain ⟨hlaidOut, hfresh, hoffsets⟩ := ih.1 hothers
            exact ⟨laidOut_cons_iff.2 ⟨others, hlaidOut, rfl⟩,
              fresh_cons_iff.2 ⟨Bool.eq_false_iff.2 hnew, hfresh⟩,
              List.forall_mem_cons.2 ⟨Int.not_lt.1 hoffset, hoffsets⟩⟩
          · exact absurd h (by simp)
    · rintro ⟨hlaidOut, hfresh, hoffsets⟩
      obtain ⟨others, hothers, rfl⟩ := laidOut_cons_iff.1 hlaidOut
      obtain ⟨hnew, hfresh⟩ := fresh_cons_iff.1 hfresh
      obtain ⟨hoffset, hoffsets⟩ := List.forall_mem_cons.1 hoffsets
      rw [if_neg (Bool.eq_false_iff.1 hnew)]
      dsimp only
      rw [if_neg (Int.not_lt.2 hoffset), Member.stop, ih.2 ⟨hothers, hfresh, hoffsets⟩]

theorem LaidOut.ne_nil {next : Int} {specs : List MemberSpec} {members : List Member}
    (h : LaidOut next specs members) (hspecs : specs ≠ []) : members ≠ [] := by
  cases h with
  | nil => exact absurd rfl hspecs
  | given | following => exact List.cons_ne_nil _ _

theorem LaidOut.types {next : Int} {specs : List MemberSpec} {members : List Member}
    (h : LaidOut next specs members) : members.map (·.type) = specs.map (·.type) := by
  induction h with
  | nil => rfl
  | given _ ih | following _ ih => rw [List.map_cons, List.map_cons, ih]

theorem LaidOut.wellFormed {next : Int} {specs : List MemberSpec} {members : List Member}
    (h : LaidOut next specs members) (hspecs : ∀ s ∈ specs, s.type.WellFormed) :
    ∀ m ∈ members, m.type.WellFormed := by
  intro m hm
  have hmem : m.type ∈ specs.map (·.type) := h.types ▸ List.mem_map_of_mem hm
  obtain ⟨s, hs, htype⟩ := List.mem_map.1 hmem
  exact htype ▸ hspecs s hs

theorem Compound.size_eq {members : List Member} {size : Int} (h : Compound members size) :
    size = extent members := by
  obtain ⟨last, hlast, hstop⟩ := h.exists_stop_eq
  obtain ⟨m, hm, hextent⟩ := exists_stop_eq_extent (List.ne_nil_of_mem hlast)
  refine Int.le_antisymm ?_ ?_
  · exact hstop ▸ stop_le_extent hlast
  · exact hextent ▸ h.stop_le m hm

/-- Assumes: the types of the members are well-formed. The search for overlaps finds none exactly
when the members lie beside each other. -/
theorem firstOverlap?_eq_none_iff_apart {members : List Member}
    (h : ∀ m ∈ members, m.type.WellFormed) :
    Span.firstOverlap? (members.map memberSpan) = none ↔ members.Pairwise Member.Apart :=
  firstOverlap?_members_eq_none_iff fun m hm ↦ ElementType.size_pos (h m hm)

theorem compoundOf_eq_ok_iff {specs : List MemberSpec} (hne : specs ≠ [])
    (hspecs : ∀ s ∈ specs, s.type.WellFormed) :
    compoundOf specs = .ok type ↔
      ∃ members size, LaidOut 0 specs members ∧ Compound members size ∧
        .compound (.ofList members) size = type := by
  rw [compoundOf]
  constructor
  · intro h
    split at h
    · exact absurd h (by simp)
    · next members hmembers =>
      obtain ⟨hlaidOut, hfresh, hoffsets⟩ := placed_eq_ok_iff.1 hmembers
      split at h
      · exact absurd h (by simp)
      · next hoverlap =>
        refine ⟨members, extent members, hlaidOut, ?_, Except.ok.inj h⟩
        exact {
          names := fresh_nil_iff.1 hfresh
          offset_nonneg := hoffsets
          apart := (firstOverlap?_eq_none_iff_apart (hlaidOut.wellFormed hspecs)).1 hoverlap
          stop_le := fun m hm ↦ stop_le_extent hm
          exists_stop_eq := exists_stop_eq_extent (hlaidOut.ne_nil hne) }
  · rintro ⟨members, size, hlaidOut, hcompound, rfl⟩
    have hplaced : placed 0 [] specs = .ok members := placed_eq_ok_iff.2
      ⟨hlaidOut, fresh_nil_iff.2 hcompound.names, hcompound.offset_nonneg⟩
    have hoverlap :=
      (firstOverlap?_eq_none_iff_apart (hlaidOut.wellFormed hspecs)).2 hcompound.apart
    rw [hplaced]
    dsimp only
    rw [hoverlap, hcompound.size_eq]
    rfl

end Descriptor

end Stowage
