import Stowage.Proofs.Descriptor.Completeness
import Stowage.Proofs.Descriptor.Spelling

/-!
# Names describe types

The name of a type is descriptor text. It leaves out the values of constants, the offsets of members
and the size of a compound, so it says everything about a type only when these are the ones that
are assigned where none is given (`ElementType.Plain`). Of such a type, the name is scanned as a
phrase (`ElementType.readsAs_name`), and the phrase means the type, after any definitions
(`ElementType.typePhrase`); so the name is read as the type.
-/

set_option autoImplicit false

namespace Stowage

open Descriptor

/-! ### Types that their names say everything about -/

mutual

/-- The name of the type says everything about it. -/
def ElementType.Plain : ElementType → Prop
  | .number _ | .string => True
  | .fixedString width => 1 ≤ width
  | .reference width => 1 ≤ width
  | .vlen element => element.Plain
  | .array element length => element.Plain ∧ 1 ≤ length ∧ isArrayType element = false
  | .enum backing constants =>
    backing.isInteger = true ∧ constants ≠ [] ∧ (constants.map (·.1)).Nodup ∧
      (∀ c ∈ constants, IsIdentifier c.1) ∧
      constants.map (·.2) = (List.range constants.length).map (↑·)
  | .compound members size =>
    members.toList ≠ [] ∧ (members.toList.map (·.name)).Nodup ∧ members.PackedBetween 0 size

/-- The members have plain types and the spelling of identifiers, and lie back to back from `start`
to `stop`. -/
def Members.PackedBetween : Members → (start stop : Int) → Prop
  | .nil, start, stop => start = stop
  | .cons name offset type rest, start, stop =>
    IsIdentifier name ∧ type.Plain ∧ offset = start ∧ rest.PackedBetween (start + type.size) stop

end

mutual

instance ElementType.decidablePlain : (type : ElementType) → Decidable type.Plain
  | .number _ | .string => isTrue trivial
  | .fixedString width | .reference width => inferInstanceAs (Decidable (1 ≤ width))
  | .vlen element => element.decidablePlain
  | .array element length =>
    have := element.decidablePlain
    inferInstanceAs (Decidable (element.Plain ∧ 1 ≤ length ∧ isArrayType element = false))
  | .enum backing constants =>
    inferInstanceAs (Decidable (backing.isInteger = true ∧ constants ≠ [] ∧
      (constants.map (·.1)).Nodup ∧ (∀ c ∈ constants, IsIdentifier c.1) ∧
      constants.map (·.2) = (List.range constants.length).map (↑·)))
  | .compound members size =>
    have := members.decidablePackedBetween 0 size
    inferInstanceAs (Decidable (members.toList ≠ [] ∧ (members.toList.map (·.name)).Nodup ∧
      members.PackedBetween 0 size))

instance Members.decidablePackedBetween : (members : Members) → (start stop : Int) →
    Decidable (members.PackedBetween start stop)
  | .nil, start, stop => inferInstanceAs (Decidable (start = stop))
  | .cons name offset type rest, start, stop =>
    have := type.decidablePlain
    have := rest.decidablePackedBetween (start + type.size) stop
    inferInstanceAs (Decidable (IsIdentifier name ∧ type.Plain ∧ offset = start ∧
      rest.PackedBetween (start + type.size) stop))

end

/-! ### The phrase that a name spells -/

/-- The constants of an enumeration, separated by commas. -/
def Descriptor.constantPhrase : List String → List Lexeme
  | [] => []
  | [name] => [.identifier name]
  | name :: rest => .identifier name :: .mark .comma :: constantPhrase rest

mutual

/-- The lexemes of the name of a type. -/
def ElementType.phrase : ElementType → List Lexeme
  | .number type => [.identifier type.name]
  | .fixedString width =>
    [.identifier "string", .mark .openParen, .integer width, .mark .closeParen]
  | .string => [.identifier "string"]
  | .vlen element => .keyword .vlen :: .mark .less :: (element.phrase ++ [.mark .greater])
  | .array element length =>
    .keyword .array :: .mark .less ::
      (element.phrase ++ [.mark .comma, .integer length, .mark .greater])
  | .reference width =>
    if width = referenceSize then [.identifier "reference"]
    else [.identifier "reference", .mark .openParen, .integer width, .mark .closeParen]
  | .enum backing constants =>
    .keyword .enum :: .mark .less :: .identifier backing.name :: .mark .greater ::
      .mark .openBrace :: (constantPhrase (constants.map (·.1)) ++ [.mark .closeBrace])
  | .compound members _ =>
    .keyword .compound :: .mark .openBrace :: (members.phrase ++ [.mark .closeBrace])

/-- The lexemes of the names and types of members. -/
def Members.phrase : Members → List Lexeme
  | .nil => []
  | .cons name _ type .nil => .identifier name :: .mark .colon :: type.phrase
  | .cons name _ type rest =>
    .identifier name :: .mark .colon :: (type.phrase ++ .mark .comma :: rest.phrase)

end

namespace Descriptor

variable {cs : List Char} {ls : List Lexeme}

/-! ### Names are scanned as their phrases -/

theorem isIdentifier_numberType (type : NumberType) : IsIdentifier type.name := by
  cases type <;> decide

theorem readsAs_constants (names : List String) (hnames : ∀ name ∈ names, IsIdentifier name)
    (hbreak : Breaks cs) (h : ReadsAs cs ls) :
    ReadsAs ((", ".intercalate names).toList ++ cs) (constantPhrase names ++ ls) := by
  induction names with
  | nil => exact h
  | cons name rest ih =>
    obtain ⟨hname, hrest⟩ := List.forall_mem_cons.1 hnames
    cases rest with
    | nil =>
      simp only [String.toList_intercalate, List.map_cons, List.map_nil,
        List.intercalate_singleton]
      exact .identifier hname hbreak h
    | cons second rest =>
      have htail := ih hrest
      simp only [String.toList_intercalate, List.map_cons, List.intercalate_cons_cons,
        List.append_assoc] at htail ⊢
      exact .identifier hname (breaks_mark .comma) (.mark .comma (.space htail))

/-- A name with a width behind it. -/
theorem readsAs_sized {name : String} {width : Int} (hname : IsIdentifier name) (hwidth : 1 ≤ width)
    (h : ReadsAs cs ls) :
    ReadsAs (name.toList ++ '(' :: ((toString width).toList ++ ')' :: cs))
      (.identifier name :: .mark .openParen :: .integer width :: .mark .closeParen :: ls) := by
  have hinteger := ReadsAs.integer (by omega : 0 ≤ width) (breaks_mark .closeParen)
    (.mark .closeParen h)
  exact .identifier hname (breaks_mark .openParen) (.mark .openParen hinteger)

end Descriptor

mutual

/-- Assumes: the name of the type says everything about it. The name is scanned as its phrase. -/
theorem ElementType.readsAs_name {cs : List Char} {ls : List Lexeme} (type : ElementType)
    (hplain : type.Plain) (hbreak : Breaks cs) (h : ReadsAs cs ls) :
    ReadsAs (type.name.toList ++ cs) (type.phrase ++ ls) := by
  match type, hplain with
  | .number type, _ => exact .identifier (isIdentifier_numberType type) hbreak h
  | .fixedString width, hwidth =>
    have hopen : "string(".toList = "string".toList ++ ['('] := by decide
    have hclose : ")".toList = [')'] := by decide
    simp only [ElementType.name, String.toList_append, List.append_assoc, hopen, hclose]
    exact readsAs_sized (by decide) hwidth h
  | .string, _ => exact .identifier (by decide) hbreak h
  | .vlen element, hplain =>
    have hopen : "vlen<".toList = Keyword.vlen.text.toList ++ ['<'] := by decide
    have hclose : ">".toList = ['>'] := by decide
    have helement := element.readsAs_name hplain (breaks_mark .greater) (.mark .greater h)
    simp only [ElementType.name, ElementType.phrase, String.toList_append, List.cons_append,
      List.append_assoc, hopen, hclose]
    exact .keyword .vlen (breaks_mark .less) (.mark .less helement)
  | .array element length, ⟨helement, hlength, _⟩ =>
    have hopen : "array<".toList = Keyword.array.text.toList ++ ['<'] := by decide
    have hcomma : ", ".toList = [',', ' '] := by decide
    have hclose : ">".toList = ['>'] := by decide
    have hinteger := ReadsAs.integer (by omega : 0 ≤ length) (breaks_mark .greater)
      (.mark .greater h)
    have helement := element.readsAs_name helement (breaks_mark .comma)
      (.mark .comma (.space hinteger))
    simp only [ElementType.name, ElementType.phrase, String.toList_append, List.cons_append,
      List.append_assoc, hopen, hcomma, hclose]
    exact .keyword .array (breaks_mark .less) (.mark .less helement)
  | .reference width, hwidth =>
    rw [ElementType.name, ElementType.phrase]
    split
    · exact .identifier (by decide) hbreak h
    · have hopen : "reference(".toList = "reference".toList ++ ['('] := by decide
      have hclose : ")".toList = [')'] := by decide
      simp only [String.toList_append, List.append_assoc, hopen, hclose]
      exact readsAs_sized (by decide) hwidth h
  | .enum backing constants, ⟨_, _, _, hnames, _⟩ =>
    have hopen : "enum<".toList = Keyword.enum.text.toList ++ ['<'] := by decide
    have hbrace : "> \x7b ".toList = ['>', ' ', '\x7b', ' '] := by decide
    have hclose : " \x7d".toList = [' ', '\x7d'] := by decide
    have hbreak : Breaks (' ' :: '\x7d' :: cs) := breaks_cons (by decide) (by decide)
    have hconstants := readsAs_constants (constants.map (·.1)) (by simpa using hnames) hbreak
      (.space (.mark .closeBrace h))
    simp only [ElementType.name, ElementType.phrase, String.toList_append, List.cons_append,
      List.append_assoc, hopen, hbrace, hclose]
    exact .keyword .enum (breaks_mark .less) (.mark .less (.identifier
      (isIdentifier_numberType backing) (breaks_mark .greater) (.mark .greater (.space
        (.mark .openBrace (.space hconstants))))))
  | .compound members size, ⟨_, _, hmembers⟩ =>
    have hopen : "compound \x7b ".toList = Keyword.compound.text.toList ++ [' ', '\x7b', ' '] := by
      decide
    have hclose : " \x7d".toList = [' ', '\x7d'] := by decide
    have hbreak : Breaks (' ' :: '\x7d' :: cs) := breaks_cons (by decide) (by decide)
    have hnames := members.readsAs_names hmembers hbreak (.space (.mark .closeBrace h))
    simp only [ElementType.name, ElementType.phrase, String.toList_append, List.cons_append,
      List.append_assoc, hopen, hclose]
    exact .keyword .compound (breaks_cons (by decide) (by decide))
      (.space (.mark .openBrace (.space hnames)))

theorem Members.readsAs_names {cs : List Char} {ls : List Lexeme} {start stop : Int}
    (members : Members) (hplain : members.PackedBetween start stop) (hbreak : Breaks cs)
    (h : ReadsAs cs ls) : ReadsAs (members.names.toList ++ cs) (members.phrase ++ ls) := by
  have hcolon : ": ".toList = [':', ' '] := by decide
  have hcomma : ", ".toList = [',', ' '] := by decide
  match members, hplain with
  | .nil, _ => exact h
  | .cons name offset type .nil, ⟨hname, htype, _, _⟩ =>
    have htype := type.readsAs_name htype hbreak h
    simp only [Members.names, Members.phrase, String.toList_append, List.cons_append,
      List.append_assoc, hcolon]
    exact .identifier hname (breaks_mark .colon) (.mark .colon (.space htype))
  | .cons name offset type (.cons other next second rest), ⟨hname, htype, _, hrest⟩ =>
    have hothers := Members.readsAs_names _ hrest hbreak h
    have htype := type.readsAs_name htype (breaks_mark .comma) (.mark .comma (.space hothers))
    rw [Members.names, Members.phrase]
    · simp only [String.toList_append, List.cons_append, List.append_assoc, hcolon, hcomma]
      exact .identifier hname (breaks_mark .colon) (.mark .colon (.space htype))
    all_goals exact Members.noConfusion

end

/-! ### Phrases mean the types -/

theorem Descriptor.constantList (names : List String) (hne : names ≠ []) :
    ConstantList (constantPhrase names) (names.map fun name ↦ ⟨name, none⟩) := by
  induction names with
  | nil => exact absurd rfl hne
  | cons name rest ih =>
    cases rest with
    | nil => exact .single (.mk .absent)
    | cons second rest => exact .cons (.mk .absent) (ih (List.cons_ne_nil _ _))

/-- Constants that count on have the values that are assigned where none is given. -/
theorem Descriptor.numbered_of_counting {constants : List (String × Int)} {next : Nat}
    (h : constants.map (·.2) = (List.range' next constants.length).map (↑·)) :
    Numbered next ((constants.map (·.1)).map fun name ↦ ⟨name, none⟩) constants := by
  induction constants generalizing next with
  | nil => exact .nil _
  | cons constant rest ih =>
    obtain ⟨name, value⟩ := constant
    simp only [List.map_cons, List.length_cons, List.range'_succ, List.cons.injEq] at h
    obtain ⟨rfl, hrest⟩ := h
    exact .counted (ih hrest)

mutual

theorem ElementType.Plain.size_pos {type : ElementType} (h : type.Plain) : 0 < type.size := by
  match type, h with
  | .number type, _ => exact Int.natCast_pos.2 type.size_pos
  | .fixedString _, h | .reference _, h => exact h
  | .string, _ => exact Int.natCast_pos.2 (by decide : 0 < addressSize)
  | .vlen _, _ => exact Int.natCast_pos.2 (by decide : 0 < entrySize)
  | .array _ _, ⟨helement, hlength, _⟩ => exact Int.mul_pos helement.size_pos hlength
  | .enum backing _, _ => exact Int.natCast_pos.2 backing.size_pos
  | .compound .nil _, ⟨hne, _⟩ => exact absurd rfl hne
  | .compound (.cons _ _ _ _) _, ⟨_, _, _, htype, _, hrest⟩ =>
    have hfirst := htype.size_pos
    have hlast := Members.PackedBetween.start_le hrest
    exact Int.lt_of_lt_of_le (by omega) hlast

theorem Members.PackedBetween.start_le {members : Members} {start stop : Int}
    (h : members.PackedBetween start stop) : start ≤ stop := by
  match members, h with
  | .nil, h => exact Int.le_of_eq h
  | .cons _ _ _ _, ⟨_, htype, _, hrest⟩ =>
    have hfirst := htype.size_pos
    have hlast := Members.PackedBetween.start_le hrest
    omega

end

namespace Members.PackedBetween

/-- Each member lies between the ends. -/
theorem bounds {members : Members} {start stop : Int} (h : members.PackedBetween start stop) :
    ∀ m ∈ members.toList, start ≤ m.offset ∧ m.stop ≤ stop := by
  match members, h with
  | .nil, _ => exact fun m hm ↦ absurd hm List.not_mem_nil
  | .cons name offset type rest, ⟨_, htype, hoffset, hrest⟩ =>
    have hfirst := htype.size_pos
    have hlast := hrest.start_le
    refine List.forall_mem_cons.2 ⟨⟨Int.le_of_eq hoffset.symm, ?_⟩, fun m hm ↦ ?_⟩
    · change offset + type.size ≤ stop
      omega
    · have hm := bounds hrest m hm
      exact ⟨by omega, hm.2⟩

theorem apart {members : Members} {start stop : Int} (h : members.PackedBetween start stop) :
    members.toList.Pairwise Member.Apart := by
  match members, h with
  | .nil, _ => exact .nil
  | .cons name offset type rest, ⟨_, _, hoffset, hrest⟩ =>
    refine .cons (fun m hm ↦ .inl ?_) (apart hrest)
    have hm := (bounds hrest m hm).1
    change offset + type.size ≤ m.offset
    omega

theorem exists_stop_eq {members : Members} {start stop : Int}
    (h : members.PackedBetween start stop) (hne : members.toList ≠ []) :
    ∃ m ∈ members.toList, m.stop = stop := by
  match members, h with
  | .nil, _ => exact absurd rfl hne
  | .cons name offset type .nil, ⟨_, _, hoffset, hrest⟩ =>
    refine ⟨_, List.mem_cons_self, ?_⟩
    rw [hoffset]
    exact hrest
  | .cons name offset type (.cons _ _ _ _), ⟨_, _, _, hrest⟩ =>
    obtain ⟨m, hm, hstop⟩ := exists_stop_eq hrest (List.cons_ne_nil _ _)
    exact ⟨m, List.mem_cons_of_mem _ hm, hstop⟩

/-- Members that lie back to back make up a compound. -/
theorem compound {members : Members} {stop : Int} (h : members.PackedBetween 0 stop)
    (hne : members.toList ≠ []) (hnames : (members.toList.map (·.name)).Nodup) :
    Compound members.toList stop where
  names := hnames
  offset_nonneg := fun m hm ↦ (h.bounds m hm).1
  apart := h.apart
  stop_le := fun m hm ↦ (h.bounds m hm).2
  exists_stop_eq := h.exists_stop_eq hne

/-- They stand at the offsets that are assigned where none is given. -/
theorem laidOut {members : Members} {start stop : Int} (h : members.PackedBetween start stop) :
    LaidOut start (members.toList.map fun m ↦ ⟨m.name, m.type, none⟩) members.toList := by
  match members, h with
  | .nil, _ => exact .nil _
  | .cons name offset type rest, ⟨_, _, hoffset, hrest⟩ =>
    subst hoffset
    exact .following (laidOut hrest)

end Members.PackedBetween

/-- A member without an offset. -/
theorem Descriptor.memberPhrase {definitions : Definitions} {phrase : List Lexeme}
    {type : ElementType} (name : String) (htype : TypePhrase definitions phrase type) :
    MemberPhrase definitions (.identifier name :: .mark .colon :: phrase) ⟨name, type, none⟩ := by
  have h : MemberPhrase definitions (.identifier name :: .mark .colon :: (phrase ++ []))
      ⟨name, type, none⟩ := .mk htype .absent
  rwa [List.append_nil] at h

mutual

/-- Assumes: the name of the type says everything about it. The phrase of the name means the type,
whatever was defined before. -/
theorem ElementType.typePhrase (definitions : Definitions) (type : ElementType)
    (hplain : type.Plain) : TypePhrase definitions type.phrase type := by
  match type, hplain with
  | .number type, _ => exact .name (.builtin (.number type))
  | .fixedString width, hwidth => exact .sized (.string hwidth)
  | .string, _ => exact .name (.builtin .string)
  | .vlen element, hplain => exact .vlen (element.typePhrase definitions hplain)
  | .array element length, ⟨helement, hlength, hflat⟩ =>
    exact .array (element.typePhrase definitions helement) hlength hflat
  | .reference width, hwidth =>
    rw [ElementType.phrase]
    split
    · next hdefault => exact hdefault ▸ .name (.builtin .reference)
    · exact .sized (.reference hwidth)
  | .enum backing constants, ⟨hbacking, hne, hnames, _, hvalues⟩ =>
    rw [List.range_eq_range'] at hvalues
    have hlist := constantList (constants.map (·.1)) (by simpa using hne)
    rw [ElementType.phrase, ← List.append_nil (constantPhrase _)]
    exact .enum hbacking hlist .absent (numbered_of_counting hvalues) hnames
  | .compound members size, ⟨hne, hnames, hmembers⟩ =>
    have hphrase := TypePhrase.compound (members.memberList definitions hmembers hne) .absent
      hmembers.laidOut (hmembers.compound hne hnames)
    rwa [List.append_nil, Members.ofList_toList] at hphrase

theorem Members.memberList (definitions : Definitions) {start stop : Int} (members : Members)
    (hplain : members.PackedBetween start stop) (hne : members.toList ≠ []) :
    MemberList definitions members.phrase
      (members.toList.map fun m ↦ ⟨m.name, m.type, none⟩) := by
  match members, hplain with
  | .nil, _ => exact absurd rfl hne
  | .cons name offset type .nil, ⟨_, htype, _, _⟩ =>
    exact .single (memberPhrase name (type.typePhrase definitions htype))
  | .cons name offset type (.cons other next second rest), ⟨_, htype, _, hrest⟩ =>
    have hmember := memberPhrase name (type.typePhrase definitions htype)
    have hothers := Members.memberList definitions _ hrest (List.cons_ne_nil _ _)
    rw [Members.phrase]
    · exact .cons hmember hothers
    · exact Members.noConfusion

end

namespace Descriptor

/-- A type that its name says everything about is what the name is read as. -/
theorem parse_name {type : ElementType} (hplain : type.Plain) : parse type.name = .ok type := by
  have hreads : ReadsAs type.name.toList type.phrase := by
    have h := type.readsAs_name hplain breaks_nil .nil
    rwa [List.append_nil, List.append_nil] at h
  obtain ⟨hlexemes, hstop⟩ := hreads ⟨1, 1⟩
  have htokens : tokenize type.name = .ok (Scan.ofText type.name).tokens :=
    tokenize_eq_ok_iff.2 ⟨hstop, rfl⟩
  have hderives : Derives (lexemes (Scan.ofText type.name).tokens) (.type type) := by
    change Derives (lexemes (scanFrom 0 ⟨1, 1⟩ type.name.toList).tokens) _
    rw [hlexemes]
    exact .type (type.typePhrase [] hplain)
  exact parse_eq_ok_iff.2 ⟨.type type, document_eq_ok_iff.2 ⟨_, htokens, hderives⟩, rfl⟩

theorem parse_name_nested :
    (ElementType.compound (.ofList [⟨"tags", 0, .array (.fixedString 4) 2⟩,
      ⟨"mode", 8, .enum .int8 [("off", 0), ("on", 1)]⟩, ⟨"links", 9, .vlen (.reference 8)⟩])
        25).Plain ∧
      parse (ElementType.compound (.ofList [⟨"tags", 0, .array (.fixedString 4) 2⟩,
        ⟨"mode", 8, .enum .int8 [("off", 0), ("on", 1)]⟩, ⟨"links", 9, .vlen (.reference 8)⟩])
          25).name =
        .ok (.compound (.ofList [⟨"tags", 0, .array (.fixedString 4) 2⟩,
          ⟨"mode", 8, .enum .int8 [("off", 0), ("on", 1)]⟩, ⟨"links", 9, .vlen (.reference 8)⟩])
            25) :=
  ⟨by decide +kernel, parse_name (by decide +kernel)⟩

/-- An offset that is not the one assigned is lost. -/
example : parse (ElementType.compound (.ofList [⟨"x", 4, .number .int8⟩]) 5).name =
    .ok (.compound (.ofList [⟨"x", 0, .number .int8⟩]) 1) := by decide +kernel

end Descriptor

end Stowage
