import Mathlib.Data.List.DropRight
import Stowage.Proofs.Descriptor.Chunks

/-!
# Inlining definitions

Where a name stands for a type that was defined, the text of its definition can stand in its place.
`inlined` does so with the text of the last definition of a document, after the names in the texts
of the definitions before it were replaced in the same way.

The chunks of the text that comes about still end in front of one another (`isChain_inline`): what
takes the place of a name begins like a word, as the name did, and ends with a word or a mark, which
nothing continues that ended the name (`Insertable`).
-/

set_option autoImplicit false

namespace Stowage.Descriptor

/-! ### Names in the place of types -/

/-- Whether a type expression begins behind the given lexemes, of which the last comes first. -/
def beginsType : List Lexeme → Bool
  | [] => true
  | .mark .colon :: _ => true
  | .mark .less :: .keyword .vlen :: _ => true
  | .mark .less :: .keyword .array :: _ => true
  | _ => false

/-- What takes the place of a lexeme behind others: of a name in the place of a type, what the table
has for it. -/
def replacement? {β : Type} (table : List (String × β)) (before : List Lexeme) :
    Lexeme → Option β
  | .identifier name =>
    if beginsType before then (table.find? (·.1 == name)).map (·.2) else none
  | _ => none

/-- The chunks with the names in the places of types replaced, behind other lexemes. -/
def inline (table : List (String × List Chunk)) : (before : List Lexeme) → List Chunk → List Chunk
  | _, [] => []
  | before, chunk :: rest =>
    match chunk.lexeme? with
    | none => chunk :: inline table before rest
    | some lexeme =>
      (replacement? table before lexeme).getD [chunk] ++ inline table (lexeme :: before) rest

/-- The lexemes with the names in the places of types replaced, behind other lexemes. -/
def inlineLexemes (table : List (String × List Lexeme)) :
    (before : List Lexeme) → List Lexeme → List Lexeme
  | _, [] => []
  | before, lexeme :: rest =>
    (replacement? table before lexeme).getD [lexeme] ++ inlineLexemes table (lexeme :: before) rest

/-! ### Definitions in a text -/

/-- The chunks between one `define` and the next. -/
def statementsOf (chunks : List Chunk) : List (List Chunk) :=
  (chunks.splitOnP (·.lexeme? == some (.keyword .define))).tail

/-- The name that a definition gives. -/
def nameOf (statement : List Chunk) : String :=
  match lexemesOf statement with
  | .identifier name :: _ => name
  | _ => ""

/-- The chunks from the first token to the last. -/
def trimmed (chunks : List Chunk) : List Chunk :=
  (chunks.dropWhile (·.lexeme?.isNone)).rdropWhile (·.lexeme?.isNone)

/-- The type expression of a definition, from its first token to its last. -/
def expressionOf (statement : List Chunk) : List Chunk :=
  trimmed (statement.dropWhile (·.lexeme? != some (.keyword .as))).tail

/-- The table with the type expression of one more definition, the names in it replaced. -/
def expand (table : List (String × List Chunk)) (statement : List Chunk) :
    List (String × List Chunk) :=
  table ++ [(nameOf statement, inline table [] (expressionOf statement))]

/-- The type expression of the last definition in a text, with every name in the place of a type
that was defined before it replaced by the type expression of its definition, and the names in that
as well. A text without definitions is left as it is. -/
def inlined (text : String) : String :=
  match ((statementsOf (chunksFrom 0 text.toList)).foldl expand []).getLast? with
  | some (_, chunks) => String.ofList (spelled chunks)
  | none => text

example :
    inlined "define id as int8 # small\ndefine row as compound \x7b id: id, to: vlen<id> \x7d" =
      "compound \x7b id: int8, to: vlen<int8> \x7d" := by decide +kernel

/-! ### Characters that meet -/

section Characters

variable {c d e : Char} {chunk : Chunk} {lexeme : Lexeme}

theorem continuesWord_of_startsWord (h : startsWord c = true) : continuesWord c = true := by
  rw [startsWord, Bool.or_eq_true] at h
  rw [continuesWord, Char.isAlphanum, Bool.or_eq_true, Bool.or_eq_true]
  exact h.imp .inl id

theorem continuation_of_startsWord (h : startsWord c = true) : continuation c = continuesWord := by
  obtain ⟨hlow, _⟩ := bounds_of_startsWord h
  rw [continuation, isBlank_eq_false (by omega), isDigit_of_startsWord h,
    beq_minus_of_startsWord h, h]
  rfl

/-- A piece is continued by no character that starts a word, or by all of them. -/
theorem continuation_congr (hd : startsWord d = true) (he : startsWord e = true) :
    continuation c d = continuation c e := by
  have hnewline : ∀ {c}, startsWord c = true → (c != '\n') = true := by
    intro c hc
    rw [bne_iff_ne]
    rintro rfl
    exact absurd hc (by decide)
  unfold continuation
  repeat' split
  · rfl
  · rw [isDigit_of_startsWord hd, isDigit_of_startsWord he]
  · rw [continuesWord_of_startsWord hd, continuesWord_of_startsWord he]
  · exact (hnewline hd).trans (hnewline he).symm
  · rfl

/-- Whether a lexeme is a word. -/
def Lexeme.isWord : Lexeme → Bool
  | .identifier _ | .keyword _ => true
  | _ => false

theorem isWord_ofWord (word : List Char) : (Lexeme.ofWord word).isWord = true := by
  unfold Lexeme.ofWord
  dsimp only
  split <;> rfl

/-- A token is a word, an integer or a mark, and its first character says which. -/
theorem Chunk.lexeme?_cases (h : chunk.lexeme? = some lexeme) :
    (lexeme.isWord = true ∧ startsWord chunk.first = true) ∨ (∃ value, lexeme = .integer value) ∨
      ∃ mark, lexeme = .mark mark ∧ mark.char = chunk.first := by
  unfold lexeme? at h
  split at h
  · next found more hpiece =>
    obtain rfl := Option.some.inj h
    unfold pieceOf at hpiece
    split at hpiece
    · exact absurd hpiece (by simp)
    split at hpiece
    · exact .inr (.inl ⟨_, (Piece.token.inj hpiece).1.symm⟩)
    split at hpiece
    · exact .inr (.inl ⟨_, (Piece.token.inj hpiece).1.symm⟩)
    split at hpiece
    · next hword => exact .inl ⟨(Piece.token.inj hpiece).1 ▸ isWord_ofWord _, hword⟩
    split at hpiece
    · exact absurd hpiece (by simp)
    split at hpiece
    · next mark hmark =>
      have hchar := List.find?_some hmark
      exact .inr (.inr ⟨mark, (Piece.token.inj hpiece).1.symm, beq_iff_eq.1 hchar⟩)
    · exact absurd hpiece (by simp)
  · exact absurd h (by simp)

theorem Chunk.startsWord_first (h : chunk.lexeme? = some lexeme) (hword : lexeme.isWord = true) :
    startsWord chunk.first = true := by
  rcases lexeme?_cases h with ⟨_, hfirst⟩ | ⟨value, rfl⟩ | ⟨mark, rfl, _⟩
  · exact hfirst
  · exact absurd hword Bool.false_ne_true
  · exact absurd hword Bool.false_ne_true

/-- A token that is no integer is continued only by what continues a word. -/
theorem Chunk.continuation_eq_false (h : chunk.lexeme? = some lexeme)
    (hinteger : ∀ value, lexeme ≠ .integer value) (hc : continuesWord c = false) :
    continuation chunk.first c = false := by
  rcases lexeme?_cases h with ⟨_, hfirst⟩ | ⟨value, rfl⟩ | ⟨mark, rfl, hfirst⟩
  · rw [continuation_of_startsWord hfirst, hc]
  · exact absurd rfl (hinteger value)
  · rw [← hfirst]
    cases mark <;> rfl

end Characters

/-! ### Chunks in the place of names -/

/-- Chunks that can stand in the place of a name: they end in front of one another, they begin as a
word does, and they end in front of whatever does not continue a word. -/
structure Insertable (chunks : List Chunk) : Prop where
  /-- Each chunk ends in front of the next. -/
  chain : chunks.IsChain Chunk.EndsBefore
  /-- The first of them starts a word. -/
  first : ∃ chunk ∈ chunks.head?, startsWord chunk.first = true
  /-- The last of them is continued only by what continues a word. -/
  last : ∃ chunk ∈ chunks.getLast?, ∀ c, continuesWord c = false →
    continuation chunk.first c = false

section Insertion

variable {table : List (String × List Chunk)} {before : List Lexeme} {chunk : Chunk}
  {chunks rest block : List Chunk}

theorem exists_of_replacement? {β : Type} {table : List (String × β)} {lexeme : Lexeme} {b : β}
    (h : replacement? table before lexeme = some b) :
    lexeme.isWord = true ∧ ∃ entry ∈ table, entry.2 = b := by
  cases lexeme with
  | identifier name =>
    obtain ⟨_, hfind⟩ := Option.ite_none_right_eq_some.1 h
    obtain ⟨entry, hentry, rfl⟩ := Option.map_eq_some_iff.1 hfind
    exact ⟨rfl, entry, List.mem_of_find?_eq_some hentry, rfl⟩
  | _ => exact absurd h (by simp [replacement?])

/-- Assumes: what the table has for names can stand in their places. The first of the chunks stays,
or it is a word and something of the table takes its place. -/
theorem exists_inline_cons (htable : ∀ entry ∈ table, Insertable entry.2) (before : List Lexeme)
    (chunk : Chunk) (rest : List Chunk) :
    ∃ block after, inline table before (chunk :: rest) = block ++ inline table after rest ∧
      (block = [chunk] ∨ Insertable block ∧ startsWord chunk.first = true) := by
  rw [inline]
  split
  · exact ⟨[chunk], before, rfl, .inl rfl⟩
  · next lexeme hlexeme =>
    rcases hblock : replacement? table before lexeme with _ | block
    · exact ⟨[chunk], lexeme :: before, rfl, .inl rfl⟩
    · obtain ⟨hword, entry, hentry, rfl⟩ := exists_of_replacement? hblock
      exact ⟨entry.2, lexeme :: before, rfl, .inr ⟨htable entry hentry,
        Chunk.startsWord_first hlexeme hword⟩⟩

theorem Insertable.head?_append (h : Insertable block) :
    ∃ first ∈ (block ++ rest).head?, startsWord first.first = true := by
  obtain ⟨first, hfirst, hword⟩ := h.first
  exact ⟨first, List.mem_head?_append_of_mem_head? hfirst, hword⟩

/-- What comes first after the replacing is what came first before, or both start a word. -/
theorem head?_inline (htable : ∀ entry ∈ table, Insertable entry.2) {first : Chunk}
    (h : first ∈ (inline table before chunks).head?) :
    ∃ old ∈ chunks.head?, first = old ∨ startsWord first.first = true ∧
      startsWord old.first = true := by
  cases chunks with
  | nil => exact absurd h (by simp [inline])
  | cons chunk rest =>
    obtain ⟨block, after, heq, hblock⟩ := exists_inline_cons htable before chunk rest
    rw [heq] at h
    refine ⟨chunk, rfl, ?_⟩
    rcases hblock with rfl | ⟨hblock, hword⟩
    · exact .inl (Option.some.inj h).symm
    · obtain ⟨head, hhead, hstarts⟩ : ∃ head ∈ (block ++ inline table after rest).head?,
        startsWord head.first = true := hblock.head?_append
      obtain rfl := Option.some.inj (h.symm.trans hhead)
      exact .inr ⟨hstarts, hword⟩

/-- The chunks still end in front of one another. -/
theorem isChain_inline (htable : ∀ entry ∈ table, Insertable entry.2)
    (h : chunks.IsChain Chunk.EndsBefore) :
    (inline table before chunks).IsChain Chunk.EndsBefore := by
  induction chunks generalizing before with
  | nil => exact .nil
  | cons chunk rest ih =>
    obtain ⟨hends, hrest⟩ := List.isChain_cons.1 h
    obtain ⟨block, after, heq, hblock⟩ := exists_inline_cons htable before chunk rest
    rw [heq]
    rcases hblock with rfl | ⟨hblock, hword⟩
    · refine (ih hrest).cons fun next hnext ↦ ?_
      obtain ⟨old, hold, rfl | ⟨hstarts, hstarted⟩⟩ := head?_inline htable hnext
      · exact hends next hold
      · exact (continuation_congr hstarts hstarted).trans (hends old hold)
    · refine hblock.chain.append (ih hrest) fun last hlast next hnext ↦ ?_
      obtain ⟨found, hfound, hcontinues⟩ := hblock.last
      obtain rfl := Option.some.inj (hlast.symm.trans hfound)
      refine hcontinues _ ?_
      obtain ⟨old, hold, hnext⟩ := head?_inline htable hnext
      have hended : continuesWord old.first = false :=
        continuation_of_startsWord hword ▸ hends old hold
      rcases hnext with rfl | ⟨_, hstarted⟩
      · exact hended
      · exact absurd (continuesWord_of_startsWord hstarted) (Bool.eq_false_iff.1 hended)

/-- After the replacing, chunks can stand in the place of a name if they could before. -/
theorem Insertable.inline (htable : ∀ entry ∈ table, Insertable entry.2) (h : Insertable chunks) :
    Insertable (inline table before chunks) := by
  refine ⟨isChain_inline htable h.chain, ?_, ?_⟩
  · obtain ⟨first, hfirst, hword⟩ := h.first
    obtain ⟨rest, rfl⟩ := List.head?_eq_some_iff.1 hfirst
    obtain ⟨block, after, heq, rfl | ⟨hblock, _⟩⟩ := exists_inline_cons htable before first rest
    · exact ⟨first, heq ▸ rfl, hword⟩
    · exact heq ▸ hblock.head?_append
  · obtain ⟨last, hlast, hends⟩ := h.last
    clear h
    induction chunks generalizing before with
    | nil => exact absurd hlast (by simp)
    | cons chunk rest ih =>
      obtain ⟨block, after, heq, hblock⟩ := exists_inline_cons htable before chunk rest
      rw [heq]
      cases rest with
      | nil =>
        rw [Descriptor.inline, List.append_nil]
        rcases hblock with rfl | ⟨hblock, _⟩
        · exact ⟨last, hlast, hends⟩
        · exact hblock.last
      | cons next rest =>
        obtain ⟨found, hfound, hcontinues⟩ := @ih after hlast
        exact ⟨found, List.mem_getLast?_append_of_mem_getLast? hfound, hcontinues⟩

end Insertion

end Stowage.Descriptor
