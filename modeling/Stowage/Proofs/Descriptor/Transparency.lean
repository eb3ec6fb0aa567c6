import Stowage.Proofs.Descriptor.Completeness
import Stowage.Proofs.Descriptor.Inlining
import Stowage.Proofs.Descriptor.Reader

/-!
# Definitions are transparent

A phrase whose names are replaced by the phrases of their definitions is a phrase of the same type
without any definition (`TypePhrase.exists_inlined`), by induction on its derivation: a name in the
place of a type is resolved against the table of phrases as it was against the definitions, and all
else stays. Along the definitions of a document, the table goes on to stand for them
(`Expansion.exists_step`), so the last text in it is read as the type of the document
(`parse_inlined`). A reader that has read other texts before makes no difference.
-/

set_option autoImplicit false

namespace Stowage.Descriptor

variable {definitions : Definitions} {before phrase others : List Lexeme} {lexeme : Lexeme}
  {type : ElementType}

/-! ### Replacing in phrases -/

section Phrases

variable {table : List (String × List Lexeme)} {phrase' others' : List Lexeme}

/-- Behind the given lexemes and whatever follows, replacing makes one phrase of the other. -/
def Inlines (table : List (String × List Lexeme)) (before phrase phrase' : List Lexeme) : Prop :=
  ∀ following, inlineLexemes table before (phrase ++ following) =
    phrase' ++ inlineLexemes table (phrase.reverse ++ before) following

namespace Inlines

theorem nil : Inlines table before [] [] := fun _ ↦ rfl

theorem cons (h : replacement? table before lexeme = none)
    (hothers : Inlines table (lexeme :: before) others others') :
    Inlines table before (lexeme :: others) (lexeme :: others') := by
  intro following
  rw [List.cons_append, inlineLexemes, h, hothers following, List.reverse_cons, List.append_assoc]
  rfl

theorem append (hphrase : Inlines table before phrase phrase')
    (hothers : Inlines table (phrase.reverse ++ before) others others') :
    Inlines table before (phrase ++ others) (phrase' ++ others') := by
  intro following
  rw [List.append_assoc, hphrase, hothers, List.reverse_append, List.append_assoc,
    List.append_assoc]

end Inlines

theorem replacement?_of_not_beginsType (hbefore : beginsType before = false) :
    replacement? table before lexeme = none := by
  cases lexeme with
  | identifier name =>
    refine if_neg ?_
    rw [hbefore]
    exact Bool.false_ne_true
  | _ => rfl

/-- The table has phrases of the same types for the names that were defined, and for these only. -/
structure Expands (table : List (String × List Lexeme)) (definitions : Definitions) : Prop where
  /-- A type that needs no definition is not in the table. -/
  builtin : ∀ {name : String} {type : ElementType}, Builtin name type →
    table.find? (·.1 == name) = none
  /-- A name that is free is not in the table. -/
  free : ∀ {name : String}, Free definitions name → table.find? (·.1 == name) = none
  /-- What a name becomes has the type of the name. -/
  named : ∀ {name : String} {type : ElementType}, Named definitions name type →
    TypePhrase [] (((table.find? (·.1 == name)).map (·.2)).getD [.identifier name]) type

theorem Sized.builtin {name : String} {width : Int} (h : Sized width name type) :
    ∃ type, Builtin name type := by
  cases h with
  | string => exact ⟨_, .string⟩
  | reference => exact ⟨_, .reference⟩

theorem OptionalInteger.inlines {mark : Mark} {value? : Option Int}
    (h : OptionalInteger mark phrase value?) : Inlines table before phrase phrase := by
  cases h with
  | absent => exact .nil
  | present => exact .cons rfl (.cons rfl .nil)

theorem OptionalComma.inlines (h : OptionalComma phrase) : Inlines table before phrase phrase := by
  cases h with
  | absent => exact .nil
  | present => exact .cons rfl .nil

/-- Behind the brace or a comma, the name of a constant is not in the place of a type. -/
theorem ConstantList.inlines {specs : List ConstantSpec} (h : ConstantList phrase specs)
    (hbefore : beginsType before = false) : Inlines table before phrase phrase := by
  induction h generalizing before with
  | single h =>
    obtain ⟨hvalue⟩ := h
    exact .cons (replacement?_of_not_beginsType hbefore) hvalue.inlines
  | cons h _ ih =>
    obtain ⟨hvalue⟩ := h
    exact .append (.cons (replacement?_of_not_beginsType hbefore) hvalue.inlines)
      (.cons rfl (ih rfl))

mutual

/-- Assumes: a table with phrases of the same types for the names that were defined. Where a type
begins, a type expression becomes a type expression of the same type without definitions. -/
theorem TypePhrase.exists_inlined (htable : Expands table definitions) {phrase : List Lexeme}
    {type : ElementType} : TypePhrase definitions phrase type →
      ∃ phrase', (∀ before, beginsType before = true → Inlines table before phrase phrase') ∧
        TypePhrase [] phrase' type
  | .name hname => by
    refine ⟨_, fun before hbefore following ↦ ?_, htable.named hname⟩
    rw [List.cons_append, inlineLexemes, replacement?, if_pos hbefore]
    rfl
  | .sized hsized => by
    obtain ⟨_, hbuiltin⟩ := hsized.builtin
    refine ⟨_, fun before hbefore ↦ .cons ?_ (.cons rfl (.cons rfl (.cons rfl .nil))),
      .sized hsized⟩
    rw [replacement?, if_pos hbefore, htable.builtin hbuiltin]
    rfl
  | .vlen helement => by
    obtain ⟨element, hinlines, hderives⟩ := TypePhrase.exists_inlined htable helement
    exact ⟨_, fun _ _ ↦ .cons rfl (.cons rfl ((hinlines _ rfl).append (.cons rfl .nil))),
      .vlen hderives⟩
  | .array helement hlength hflat => by
    obtain ⟨element, hinlines, hderives⟩ := TypePhrase.exists_inlined htable helement
    refine ⟨_, fun _ _ ↦ .cons rfl (.cons rfl ((hinlines _ rfl).append ?_)),
      .array hderives hlength hflat⟩
    exact .cons rfl (.cons rfl (.cons rfl .nil))
  | .enum hbacking hspecs hcomma hnumbered hnames => by
    refine ⟨_, fun _ _ ↦ .cons rfl (.cons rfl (.cons rfl (.cons rfl (.cons rfl ?_)))),
      .enum hbacking hspecs hcomma hnumbered hnames⟩
    exact ((hspecs.inlines rfl).append hcomma.inlines).append (.cons rfl .nil)
  | .compound hspecs hcomma hlaidOut hcompound => by
    obtain ⟨list, hinlines, hderives⟩ := MemberList.exists_inlined htable hspecs
    refine ⟨_, fun _ _ ↦ .cons rfl (.cons rfl ?_), .compound hderives hcomma hlaidOut hcompound⟩
    exact ((hinlines _ rfl).append hcomma.inlines).append (.cons rfl .nil)

/-- The name of a member is not in the place of a type, its type is. -/
theorem MemberPhrase.exists_inlined (htable : Expands table definitions) {phrase : List Lexeme}
    {spec : MemberSpec} : MemberPhrase definitions phrase spec →
      ∃ phrase', (∀ before, beginsType before = false → Inlines table before phrase phrase') ∧
        MemberPhrase [] phrase' spec
  | .mk htype hoffset => by
    obtain ⟨type, hinlines, hderives⟩ := TypePhrase.exists_inlined htable htype
    refine ⟨_, fun _ hbefore ↦ .cons (replacement?_of_not_beginsType hbefore) (.cons rfl ?_),
      .mk hderives hoffset⟩
    exact (hinlines _ rfl).append hoffset.inlines

theorem MemberList.exists_inlined (htable : Expands table definitions) {phrase : List Lexeme}
    {specs : List MemberSpec} : MemberList definitions phrase specs →
      ∃ phrase', (∀ before, beginsType before = false → Inlines table before phrase phrase') ∧
        MemberList [] phrase' specs
  | .single h => by
    obtain ⟨phrase', hinlines, hderives⟩ := MemberPhrase.exists_inlined htable h
    exact ⟨phrase', hinlines, .single hderives⟩
  | .cons hhead htail => by
    obtain ⟨head, hhead, hderives⟩ := MemberPhrase.exists_inlined htable hhead
    obtain ⟨tail, htail, hlist⟩ := MemberList.exists_inlined htable htail
    exact ⟨_, fun _ hbefore ↦ (hhead _ hbefore).append (.cons rfl (htail _ rfl)),
      .cons hderives hlist⟩

end

theorem find?_concat_of_ne {name other : String} (hne : other ≠ name) :
    (table ++ [(name, phrase)]).find? (·.1 == other) = table.find? (·.1 == other) := by
  rw [List.find?_append, List.find?_cons_of_neg (by simpa using hne.symm), List.find?_nil,
    Option.or_none]

/-- One more name is defined, and has a phrase of the same type. -/
theorem Expands.concat {name : String} (h : Expands table definitions)
    (hfree : Free definitions name) (hphrase : TypePhrase [] phrase type) :
    Expands (table ++ [(name, phrase)]) (definitions ++ [(name, type)]) := by
  refine ⟨fun {other found} hbuiltin ↦ ?_, fun {other} hother ↦ ?_, fun {other found} hnamed ↦ ?_⟩
  · have hne : other ≠ name := by
      rintro rfl
      exact hfree found (.builtin hbuiltin)
    rw [find?_concat_of_ne hne, h.builtin hbuiltin]
  · have hne : other ≠ name := by
      rintro rfl
      exact hother type (named_concat_iff.2 (.inr rfl))
    rw [find?_concat_of_ne hne]
    exact h.free fun found hfound ↦ hother found (named_concat_iff.2 (.inl hfound))
  · rcases named_concat_iff.1 hnamed with hold | hnew
    · have hne : other ≠ name := by
        rintro rfl
        exact hfree found hold
      rw [find?_concat_of_ne hne]
      exact h.named hold
    · obtain ⟨rfl, rfl⟩ := Prod.mk.inj hnew
      rw [List.find?_append, h.free hfree, Option.none_or, List.find?_cons_of_pos (by simp)]
      exact hphrase

end Phrases

/-! ### What phrases look like -/

theorem TypePhrase.exists_first (h : TypePhrase definitions phrase type) :
    ∃ lexeme ∈ phrase.head?, lexeme.isWord = true := by
  cases h <;> exact ⟨_, rfl, rfl⟩

theorem TypePhrase.exists_last (h : TypePhrase definitions phrase type) :
    ∃ lexeme ∈ phrase.getLast?, ∀ value, lexeme ≠ .integer value := by
  cases h with
  | name => exact ⟨_, rfl, by simp⟩
  | sized => exact ⟨_, rfl, by simp⟩
  | vlen => exact ⟨.mark .greater, by simp [List.getLast?_cons], by simp⟩
  | array => exact ⟨.mark .greater, by simp [List.getLast?_cons], by simp⟩
  | enum => exact ⟨.mark .closeBrace, by simp [List.getLast?_cons], by simp⟩
  | compound => exact ⟨.mark .closeBrace, by simp [List.getLast?_cons], by simp⟩

theorem OptionalInteger.define_notMem {mark : Mark} {value? : Option Int}
    (h : OptionalInteger mark phrase value?) : .keyword .define ∉ phrase := by
  cases h <;> simp

theorem OptionalComma.define_notMem (h : OptionalComma phrase) : .keyword .define ∉ phrase := by
  cases h <;> simp

theorem ConstantList.define_notMem {specs : List ConstantSpec} (h : ConstantList phrase specs) :
    .keyword .define ∉ phrase := by
  induction h with
  | single h =>
    obtain ⟨hvalue⟩ := h
    simpa using hvalue.define_notMem
  | cons h _ ih =>
    obtain ⟨hvalue⟩ := h
    simpa using ⟨hvalue.define_notMem, ih⟩

mutual

/-- The word that begins a definition is in no type expression. -/
theorem TypePhrase.define_notMem {phrase : List Lexeme} {type : ElementType} :
    TypePhrase definitions phrase type → .keyword .define ∉ phrase
  | .name _ => by simp
  | .sized _ => by simp
  | .vlen helement => by simpa using TypePhrase.define_notMem helement
  | .array helement _ _ => by simpa using TypePhrase.define_notMem helement
  | .enum _ hspecs hcomma _ _ => by
    simpa using ⟨hspecs.define_notMem, hcomma.define_notMem⟩
  | .compound hspecs hcomma _ _ => by
    simpa using ⟨MemberList.define_notMem hspecs, hcomma.define_notMem⟩

theorem MemberPhrase.define_notMem {phrase : List Lexeme} {spec : MemberSpec} :
    MemberPhrase definitions phrase spec → .keyword .define ∉ phrase
  | .mk htype hoffset => by
    simpa using ⟨TypePhrase.define_notMem htype, hoffset.define_notMem⟩

theorem MemberList.define_notMem {phrase : List Lexeme} {specs : List MemberSpec} :
    MemberList definitions phrase specs → .keyword .define ∉ phrase
  | .single h => MemberPhrase.define_notMem h
  | .cons hhead htail => by
    simpa using ⟨MemberPhrase.define_notMem hhead, MemberList.define_notMem htail⟩

end

/-! ### Definitions in their chunks -/

section Chunks

variable {chunks statement : List Chunk} {table : List (String × List Chunk)}

theorem lexemesOf_dropWhile (chunks : List Chunk) :
    lexemesOf (chunks.dropWhile (·.lexeme?.isNone)) = lexemesOf chunks := by
  induction chunks with
  | nil => rfl
  | cons chunk chunks ih =>
    rcases h : chunk.lexeme? with _ | lexeme
    · rw [List.dropWhile_cons_of_pos (by simp [h]), ih, lexemesOf_cons_of_none h]
    · rw [List.dropWhile_cons_of_neg (by simp [h])]

theorem lexemesOf_trimmed (chunks : List Chunk) :
    lexemesOf (trimmed chunks) = lexemesOf chunks := by
  rw [trimmed, List.rdropWhile, lexemesOf, List.filterMap_reverse]
  change (lexemesOf _).reverse = _
  rw [lexemesOf_dropWhile, lexemesOf, List.filterMap_reverse, List.reverse_reverse]
  exact lexemesOf_dropWhile chunks

theorem trimmed_isInfix (chunks : List Chunk) : trimmed chunks <:+: chunks :=
  (List.rdropWhile_prefix _ _).isInfix.trans (List.dropWhile_suffix _).isInfix

theorem isSome_of_mem_head?_trimmed {first : Chunk} (h : first ∈ (trimmed chunks).head?) :
    ∃ lexeme, first.lexeme? = some lexeme := by
  obtain ⟨tail, htail⟩ := List.rdropWhile_prefix (fun chunk : Chunk ↦ chunk.lexeme?.isNone)
    (chunks.dropWhile (·.lexeme?.isNone))
  have hhead : (chunks.dropWhile (·.lexeme?.isNone)).head? = some first :=
    htail ▸ List.mem_head?_append_of_mem_head? h
  have hkept := List.head?_dropWhile_not (fun chunk : Chunk ↦ chunk.lexeme?.isNone) chunks
  rw [hhead] at hkept
  exact Option.isSome_iff_exists.1 (Option.isNone_eq_false_iff.1 hkept)

theorem isSome_of_mem_getLast?_trimmed {last : Chunk} (h : last ∈ (trimmed chunks).getLast?) :
    ∃ lexeme, last.lexeme? = some lexeme := by
  obtain ⟨hne, rfl⟩ := List.mem_getLast?_eq_getLast h
  have hkept := List.rdropWhile_last_not _ _ hne
  exact Option.isSome_iff_exists.1 (Option.isNone_eq_false_iff.1 (Bool.eq_false_iff.2 hkept))

/-- Assumes: chunks that end in front of one another, and whose tokens are a type expression. From
the first token to the last, they can stand in the place of a name. -/
theorem insertable_trimmed (hchain : chunks.IsChain Chunk.EndsBefore)
    (h : TypePhrase definitions (lexemesOf chunks) type) : Insertable (trimmed chunks) := by
  rw [← lexemesOf_trimmed] at h
  have hfirst := h.exists_first
  have hlast := h.exists_last
  have hinner := List.IsChain.infix hchain (trimmed_isInfix chunks)
  refine ⟨hinner, ?_, ?_⟩
  · rcases htrimmed : trimmed chunks with _ | ⟨first, rest⟩
    · rw [htrimmed] at hfirst
      exact absurd hfirst (by simp)
    · have hmem : first ∈ (trimmed chunks).head? := by rw [htrimmed]; rfl
      obtain ⟨lexeme, hlexeme⟩ := isSome_of_mem_head?_trimmed hmem
      rw [htrimmed, lexemesOf_cons_of_some hlexeme] at hfirst
      obtain ⟨_, hhead, hword⟩ := hfirst
      obtain rfl := Option.some.inj hhead
      exact ⟨first, rfl, Chunk.startsWord_first hlexeme hword⟩
  · rcases List.eq_nil_or_concat (trimmed chunks) with htrimmed | ⟨init, last, htrimmed⟩
    · rw [htrimmed] at hlast
      exact absurd hlast (by simp)
    · rw [List.concat_eq_append] at htrimmed
      have hmem : last ∈ (trimmed chunks).getLast? := by rw [htrimmed]; simp
      obtain ⟨lexeme, hlexeme⟩ := isSome_of_mem_getLast?_trimmed hmem
      rw [htrimmed, lexemesOf_append, lexemesOf_cons_of_some hlexeme] at hlast
      obtain ⟨found, hfound, hinteger⟩ := hlast
      obtain rfl : lexeme = found := by simpa using hfound
      exact ⟨last, hmem, fun c hc ↦ Chunk.continuation_eq_false hlexeme hinteger hc⟩

/-- The name and the type expression of a definition, from the lexemes between one `define` and the
next. -/
theorem exists_expressionOf {name : String}
    (h : lexemesOf statement = .identifier name :: .keyword .as :: phrase) :
    nameOf statement = name ∧ ∃ behind, expressionOf statement = trimmed behind ∧
      behind <:+ statement ∧ lexemesOf behind = phrase := by
  obtain ⟨gap, first, others, rfl, hgap, hfirst, hothers⟩ := List.filterMap_eq_cons_iff.1 h
  obtain ⟨gap', word, behind, rfl, hgap', hword, hbehind⟩ := List.filterMap_eq_cons_iff.1 hothers
  refine ⟨by rw [nameOf, h], behind, ?_, ?_, hbehind⟩
  · have hfound : (gap ++ first :: (gap' ++ word :: behind)).dropWhile
        (·.lexeme? != some (.keyword .as)) = word :: behind := by
      rw [List.dropWhile_append_of_pos (by simpa using fun a ha ↦ by rw [hgap a ha]; simp),
        List.dropWhile_cons_of_pos (by simp [hfirst]),
        List.dropWhile_append_of_pos (by simpa using fun a ha ↦ by rw [hgap' a ha]; simp),
        List.dropWhile_cons_of_neg (by simp [hword])]
    rw [expressionOf, hfound, List.tail_cons]
  · exact ⟨gap ++ first :: (gap' ++ [word]), by simp⟩

/-- Assumes: the lexemes are a definition without another `define`, and nothing or more definitions.
The chunks of the definition come first. -/
theorem exists_statementsOf {rest : List Lexeme} (hdefine : .keyword .define ∉ phrase)
    (hrest : rest = [] ∨ ∃ others, rest = .keyword .define :: others)
    (h : lexemesOf chunks = .keyword .define :: (phrase ++ rest)) :
    ∃ statement behind, statementsOf chunks = statement :: statementsOf behind ∧
      lexemesOf statement = phrase ∧ lexemesOf behind = rest ∧ statement <:+: chunks ∧
      behind <:+: chunks := by
  obtain ⟨gap, word, others, rfl, hgap, hword, hothers⟩ := List.filterMap_eq_cons_iff.1 h
  have hstatements (gap : List Chunk) (hgap : ∀ chunk ∈ gap, chunk.lexeme? = none) (word : Chunk)
      (hword : word.lexeme? = some (.keyword .define)) (others : List Chunk) :
      statementsOf (gap ++ word :: others) =
        others.splitOnP (·.lexeme? == some (.keyword .define)) := by
    rw [statementsOf, List.splitOnP_append_cons_of_forall_mem
      (fun chunk hchunk ↦ by rw [hgap chunk hchunk]; rfl) _ (by rw [hword]; rfl), List.tail_cons]
  rw [hstatements gap hgap word hword]
  obtain ⟨first, behind, rfl, hfirst, hbehind⟩ := List.filterMap_eq_append_iff.1 hothers
  have hnone : ∀ chunk ∈ first, (chunk.lexeme? == some (.keyword .define)) = false := by
    intro chunk hchunk
    rw [beq_eq_false_iff_ne]
    exact fun hchunkDefine ↦ hdefine (hfirst ▸ List.mem_filterMap.2 ⟨chunk, hchunk, hchunkDefine⟩)
  rcases hrest with rfl | ⟨more, rfl⟩
  · refine ⟨first ++ behind, [], ?_, ?_, rfl, ?_, List.nil_infix⟩
    · refine List.splitOnP_eq_singleton fun chunk hchunk ↦ ?_
      rcases List.mem_append.1 hchunk with hchunk | hchunk
      · exact hnone chunk hchunk
      · rw [List.filterMap_eq_nil_iff.1 hbehind chunk hchunk]
        rfl
    · rw [lexemesOf_append]
      exact (congrArg₂ _ hfirst hbehind).trans (List.append_nil _)
    · exact ⟨gap ++ [word], [], by simp⟩
  · obtain ⟨gap', word', others, rfl, hgap', hword', hmore⟩ := List.filterMap_eq_cons_iff.1 hbehind
    refine ⟨first ++ gap', gap' ++ word' :: others, ?_, ?_, hbehind, ?_, ?_⟩
    · rw [hstatements gap' hgap' word' hword', ← List.append_assoc,
        List.splitOnP_append_cons_of_forall_mem _ _ (by rw [hword']; rfl)]
      intro chunk hchunk
      rcases List.mem_append.1 hchunk with hchunk | hchunk
      · exact hnone chunk hchunk
      · rw [hgap' chunk hchunk]
        rfl
    · rw [lexemesOf_append]
      exact (congrArg₂ _ hfirst (List.filterMap_eq_nil_iff.2 hgap')).trans (List.append_nil _)
    · exact ⟨gap ++ [word], word' :: others, by simp⟩
    · exact ⟨gap ++ word :: first, [], by simp⟩

/-- What the chunks of a table say. -/
def phrasesOf (table : List (String × List Chunk)) : List (String × List Lexeme) :=
  table.map fun entry ↦ (entry.1, lexemesOf entry.2)

theorem replacement?_phrasesOf (before : List Lexeme) (lexeme : Lexeme) :
    replacement? (phrasesOf table) before lexeme =
      (replacement? table before lexeme).map lexemesOf := by
  cases lexeme with
  | identifier name =>
    have hfind : (phrasesOf table).find? (·.1 == name) =
        (table.find? (·.1 == name)).map fun entry ↦ (entry.1, lexemesOf entry.2) := List.find?_map
    rw [replacement?, replacement?, hfind, Option.map_map]
    split
    · rw [Option.map_map]
      rfl
    · rfl
  | _ => rfl

/-- What chunks say after the replacing is what they say, replaced in the same way. -/
theorem lexemesOf_inline (before : List Lexeme) (chunks : List Chunk) :
    lexemesOf (inline table before chunks) =
      inlineLexemes (phrasesOf table) before (lexemesOf chunks) := by
  induction chunks generalizing before with
  | nil => rfl
  | cons chunk rest ih =>
    rw [inline]
    split
    · next hchunk =>
      rw [lexemesOf_cons_of_none hchunk, lexemesOf_cons_of_none hchunk]
      exact ih before
    · next lexeme hchunk =>
      rw [lexemesOf_append, ih, lexemesOf_cons_of_some hchunk, inlineLexemes,
        replacement?_phrasesOf]
      cases replacement? table before lexeme with
      | none => exact congrArg (· ++ _) (lexemesOf_cons_of_some hchunk)
      | some block => rfl

/-- The table of texts stands for the definitions: its texts can be put in the place of names, and
they say phrases of the same types. -/
structure Expansion (table : List (String × List Chunk)) (definitions : Definitions) : Prop where
  /-- The texts can stand in the place of a name. -/
  insertable : ∀ entry ∈ table, Insertable entry.2
  /-- Their phrases have the types of the names. -/
  expands : Expands (phrasesOf table) definitions

theorem Expansion.nil : Expansion [] [] := by
  refine ⟨by simp, fun _ ↦ rfl, fun _ ↦ rfl, fun hnamed ↦ ?_⟩
  exact .name hnamed

/-- Assumes: a definition of a free name after the given ones. Its text, with the names replaced,
goes into the table and says a phrase of its type that needs no definition. -/
theorem Expansion.exists_expand {name : String} (h : Expansion table definitions)
    (hchain : statement.IsChain Chunk.EndsBefore)
    (hstatement : lexemesOf statement = .identifier name :: .keyword .as :: phrase)
    (htype : TypePhrase definitions phrase type) (hfree : Free definitions name) :
    ∃ text, expand table statement = table ++ [(name, text)] ∧
      Expansion (table ++ [(name, text)]) (definitions ++ [(name, type)]) ∧
      TypePhrase [] (lexemesOf text) type := by
  obtain ⟨hname, behind, hexpression, hbehind, rfl⟩ := exists_expressionOf hstatement
  have hinsertable : Insertable (inline table [] (trimmed behind)) :=
    (insertable_trimmed (hchain.suffix hbehind) htype).inline h.insertable
  obtain ⟨phrase, hinlines, hphrase⟩ := htype.exists_inlined h.expands
  have hlexemes : lexemesOf (inline table [] (trimmed behind)) = phrase := by
    have hwhole := hinlines [] rfl []
    rw [List.append_nil] at hwhole
    rw [lexemesOf_inline, lexemesOf_trimmed, hwhole]
    exact List.append_nil phrase
  refine ⟨_, by rw [expand, hname, hexpression], ⟨fun entry hentry ↦ ?_, ?_⟩, hlexemes ▸ hphrase⟩
  · rcases List.mem_append.1 hentry with hold | hnew
    · exact h.insertable entry hold
    · obtain rfl := List.mem_singleton.1 hnew
      exact hinsertable
  · rw [phrasesOf, List.map_append]
    exact h.expands.concat hfree (hlexemes ▸ hphrase)

theorem statementsOf_of_lexemes_nil (h : lexemesOf chunks = []) : statementsOf chunks = [] := by
  rw [statementsOf, List.splitOnP_eq_singleton fun chunk hchunk ↦ ?_, List.tail_cons]
  rw [List.filterMap_eq_nil_iff.1 h chunk hchunk]
  rfl

/-- Assumes: a definition after the given ones, and nothing or more definitions behind it. The text
of the definition goes into the table first. -/
theorem Expansion.exists_step {found : Definitions} {rest : List Lexeme}
    (h : Expansion table definitions) (hdefinition : DefinitionPhrase definitions phrase found)
    (hrest : rest = [] ∨ ∃ others, rest = .keyword .define :: others)
    (hchain : chunks.IsChain Chunk.EndsBefore) (hchunks : lexemesOf chunks = phrase ++ rest) :
    ∃ behind name text type, lexemesOf behind = rest ∧ behind <:+: chunks ∧
      (statementsOf chunks).foldl expand table =
        (statementsOf behind).foldl expand (table ++ [(name, text)]) ∧
      Expansion (table ++ [(name, text)]) found ∧ found.getLast? = some (name, type) ∧
      TypePhrase [] (lexemesOf text) type := by
  obtain ⟨htype, hfree⟩ := hdefinition
  obtain ⟨statement, behind, hstatements, hstatement, hbehind, hinfix, hbehindInfix⟩ :=
    exists_statementsOf (by simpa using htype.define_notMem) hrest hchunks
  have hinner := List.IsChain.infix hchain hinfix
  obtain ⟨text, hexpand, hexpansion, htext⟩ := h.exists_expand hinner hstatement htype hfree
  refine ⟨behind, _, text, _, hbehind, hbehindInfix, ?_, hexpansion, List.getLast?_concat, htext⟩
  rw [hstatements, List.foldl_cons, hexpand]

/-- Assumes: definitions that follow the given ones. When the texts of all of them went into the
table, the last text in it says a phrase of the last type. -/
theorem Expansion.exists_getLast? {lexemes : List Lexeme} {found : Definitions}
    (hlist : DefinitionList definitions lexemes found) (h : Expansion table definitions)
    (hchain : chunks.IsChain Chunk.EndsBefore) (hchunks : lexemesOf chunks = lexemes) :
    ∃ name text type, found.getLast? = some (name, type) ∧
      ((statementsOf chunks).foldl expand table).getLast? = some (name, text) ∧
      text.IsChain Chunk.EndsBefore ∧ TypePhrase [] (lexemesOf text) type := by
  induction hlist generalizing table chunks with
  | single hdefinition =>
    obtain ⟨behind, name, text, type, hbehind, -, hfold, hexpansion, hlast, htext⟩ :=
      h.exists_step hdefinition (.inl rfl) hchain (hchunks.trans (List.append_nil _).symm)
    rw [hfold, statementsOf_of_lexemes_nil hbehind, List.foldl_nil]
    exact ⟨name, text, type, hlast, List.getLast?_concat,
      (hexpansion.insertable _ List.mem_concat_self).chain, htext⟩
  | cons hdefinition htail ih =>
    obtain ⟨behind, name, text, type, hbehind, hinfix, hfold, hexpansion, -⟩ :=
      h.exists_step hdefinition (.inr htail.starts) hchain hchunks
    have hrest := List.IsChain.infix hchain hinfix
    rw [hfold]
    exact ih hexpansion hrest hbehind

end Chunks

/-! ### The text of the last definition -/

/-- A text of chunks that end in front of one another is the document that their tokens say. -/
theorem document_spelled {chunks : List Chunk} {found : Document}
    (hchain : chunks.IsChain Chunk.EndsBefore) (hderives : Derives (lexemesOf chunks) found) :
    document (Scan.ofText (String.ofList (spelled chunks))) = .ok found := by
  obtain ⟨hlexemes, hstop⟩ := ReadsAs.of_isChain hchain ⟨1, 1⟩
  have hscan : Scan.ofText (String.ofList (spelled chunks)) =
      scanFrom 0 ⟨1, 1⟩ (spelled chunks) := by rw [Scan.ofText, String.toList_ofList]
  refine document_eq_ok_iff.2 ⟨_, tokenize_eq_ok_iff.2 ⟨by rw [hscan]; exact hstop, rfl⟩, ?_⟩
  rw [hscan, hlexemes]
  exact hderives

/-- Assumes: a text that consists of definitions. Its chunks are all of the text. The last type
expression in it, with the names of the definitions before it inlined, is a single type expression.
A reader gives its type for both texts, whatever texts it has read or refused before. -/
theorem parse_inlined {text : String} (h : parseDefinitions text = .ok definitions) :
    spelled (chunksFrom 0 text.toList) = text.toList ∧
    ∃ name type, definitions.getLast? = some (name, type) ∧
      document (Scan.ofText (inlined text)) = .ok (.type type) ∧
      ∀ reader, (Action.run (Reader.parse text) reader).1 = .ok type ∧
        (Action.run (Reader.parse (inlined text)) reader).1 = .ok type := by
  have hdocument := parseDefinitions_eq_ok_iff.1 h
  obtain ⟨hderives, hstop⟩ := derives_of_document hdocument
  refine ⟨spelled_chunksFrom hstop, ?_⟩
  cases hderives with
  | definitions hlist =>
    obtain ⟨name, chunks, type, hlast, hfold, hchain, hphrase⟩ := Expansion.nil.exists_getLast?
      hlist (isChain_chunksFrom 0 text.toList) (lexemesOf_chunksFrom 0 ⟨1, 1⟩ text.toList)
    have hinlined : inlined text = String.ofList (spelled chunks) := by rw [inlined, hfold]
    have hexpression : document (Scan.ofText (inlined text)) = .ok (.type type) :=
      hinlined ▸ document_spelled hchain (.type hphrase)
    refine ⟨name, type, hlast, hexpression, fun reader ↦ ⟨?_, ?_⟩⟩
    · rw [Reader.parse_outcome]
      exact parse_eq_ok_iff.2 ⟨_, hdocument, Option.map_eq_some_iff.2 ⟨_, hlast, rfl⟩⟩
    · rw [Reader.parse_outcome]
      exact parse_eq_ok_iff.2 ⟨_, hexpression, rfl⟩

/-- A text that was refused leaves another type under the name `id`, and it makes no difference. The
member with that name keeps it. -/
theorem parse_inlined_rows :
    parseDefinitions "define id as int16 define rows as vlen<compound \x7b id: id \x7d> # all" =
      .ok [("id", .number .int16),
        ("rows", .vlen (.compound (.ofList [⟨"id", 0, .number .int16⟩]) 2))] ∧
    inlined "define id as int16 define rows as vlen<compound \x7b id: id \x7d> # all" =
      "vlen<compound \x7b id: int16 \x7d>" ∧
    (Action.run (Reader.parse "define id as int8 define id as int8") Reader.fresh).2 =
      ⟨[("id", .number .int8)]⟩ ∧
    (Action.run (Reader.parse "vlen<compound \x7b id: int16 \x7d>") ⟨[("id", .number .int8)]⟩).1 =
      .ok (.vlen (.compound (.ofList [⟨"id", 0, .number .int16⟩]) 2)) := by
  have hdefinitions :
      parseDefinitions "define id as int16 define rows as vlen<compound \x7b id: id \x7d> # all" =
        .ok [("id", .number .int16),
          ("rows", .vlen (.compound (.ofList [⟨"id", 0, .number .int16⟩]) 2))] := by decide +kernel
  have hinlined :
      inlined "define id as int16 define rows as vlen<compound \x7b id: id \x7d> # all" =
        "vlen<compound \x7b id: int16 \x7d>" := by decide +kernel
  obtain ⟨-, name, type, hlast, -, hreader⟩ := parse_inlined hdefinitions
  obtain ⟨-, rfl⟩ := Prod.mk.inj (Option.some.inj hlast)
  exact ⟨hdefinitions, hinlined, by decide +kernel, hinlined ▸ (hreader ⟨_⟩).2⟩

end Stowage.Descriptor
