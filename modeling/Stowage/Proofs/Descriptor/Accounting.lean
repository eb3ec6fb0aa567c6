import Mathlib.Data.Nat.Digits.Defs
import Stowage.Fault.Message
import Stowage.Proofs.Descriptor.Soundness
import Stowage.Proofs.Descriptor.Spelling
import Stowage.Proofs.Descriptor.Standing

/-!
# Every character of a text is accounted for

`Source` says which characters a token may have, and in front of which others: a word that the
others do not continue, a run of digits that they do not continue, with or without a sign, or one
mark. `Splits` says that a text is tokens, blanks and comments one after another. No part of this
mentions how a scan proceeds.

Where none of these pieces starts, a scan reads nothing (`pieceAt_of_startsNothing`); so every text
splits up to its end or up to such a character (`exists_splits`). A scan follows any split
(`Splits.scanFrom_eq`); so there is only one, and its tokens are those of the scan
(`tokenize_accounts`).
-/

set_option autoImplicit false

namespace Stowage

/-! ### Numerals -/

namespace DecimalDigit

/-- The characters are one or more decimal digits, and these write the number. -/
def Writes (digits : List Char) (n : Nat) : Prop :=
  digits ≠ [] ∧ ∃ values : List Nat,
    digits.map value? = values.map some ∧ n = Nat.ofDigits 10 values.reverse

theorem toNat_eq_ofDigits {digits : List Char} {values : List Nat}
    (h : digits.map value? = values.map some) : toNat digits = Nat.ofDigits 10 values.reverse := by
  have hvalues : digits.filterMap value? = values := by
    have hid := congrArg (List.filterMap id) h
    rw [List.filterMap_map, List.filterMap_map, Function.id_comp, Function.id_comp] at hid
    exact hid.trans List.filterMap_some
  rw [toNat, hvalues, Nat.ofDigits_eq_foldr, List.foldr_reverse]
  simp only [Nat.cast_id, Nat.add_comm]

/-- Digits write the number that is read from them, and no other. -/
theorem writes_iff {digits : List Char} {n : Nat} :
    Writes digits n ↔ digits ≠ [] ∧ (∀ d ∈ digits, isDigit d = true) ∧ n = toNat digits := by
  constructor
  · rintro ⟨hne, values, hvalues, rfl⟩
    refine ⟨hne, fun d hd ↦ ?_, (toNat_eq_ofDigits hvalues).symm⟩
    have hvalue : value? d ∈ values.map some := hvalues ▸ List.mem_map_of_mem hd
    obtain ⟨value, _, hsome⟩ := List.mem_map.1 hvalue
    rw [isDigit, ← hsome]
    rfl
  · rintro ⟨hne, hdigits, rfl⟩
    have hvalues : digits.map value? = (digits.filterMap value?).map some := by
      clear hne
      induction digits with
      | nil => rfl
      | cons d digits ih =>
        obtain ⟨hd, hrest⟩ := List.forall_mem_cons.1 hdigits
        obtain ⟨value, hvalue⟩ := Option.isSome_iff_exists.1 hd
        rw [List.map_cons, ih hrest, List.filterMap_cons_some hvalue, hvalue, List.map_cons]
    exact ⟨hne, _, hvalues, toNat_eq_ofDigits hvalues⟩

end DecimalDigit

/-! ### Places -/

/-- A place comes before another in a text: on an earlier line, or in an earlier column of the same
line. -/
def Position.Before (first second : Position) : Prop :=
  first.line < second.line ∨ first.line = second.line ∧ first.column < second.column

theorem Position.Before.trans {first second third : Position} (h : first.Before second)
    (h' : second.Before third) : first.Before third := by
  unfold Position.Before at h h' ⊢
  omega

theorem Position.not_before_self (position : Position) : ¬ position.Before position := by
  unfold Position.Before
  omega

namespace Descriptor

open DecimalDigit (isDigit Writes writes_iff)

variable {c : Char} {before text after source rest : List Char} {lexeme : Lexeme}
  {tokens : List Token}

theorem before_advance (position : Position) (c : Char) : position.Before (advance position c) := by
  unfold advance
  split
  · exact .inl (Nat.lt_succ_self _)
  · exact .inr ⟨rfl, Nat.lt_succ_self _⟩

/-- Characters lead to a later place. -/
theorem placeAfter_before (before : List Char) (hsource : source ≠ []) :
    (placeAfter before).Before (placeAfter (before ++ source)) := by
  rw [← foldl_advance_placeAfter]
  generalize placeAfter before = position
  induction source generalizing position with
  | nil => exact absurd rfl hsource
  | cons c source ih =>
    have hfirst := before_advance position c
    by_cases hrest : source = []
    · subst hrest
      exact hfirst
    · exact hfirst.trans (ih hrest _)

/-- A place belongs to one front part of a text. -/
theorem eq_of_placeAfter_eq {first second : List Char} (hfirst : first <+: text)
    (hsecond : second <+: text) (h : placeAfter first = placeAfter second) : first = second := by
  have hsame {shorter longer : List Char} (hfront : shorter <+: longer)
      (hplace : placeAfter shorter = placeAfter longer) : shorter = longer := by
    obtain ⟨rest, rfl⟩ := hfront
    by_cases hrest : rest = []
    · rw [hrest, List.append_nil]
    · exact absurd (hplace ▸ placeAfter_before shorter hrest) (Position.not_before_self _)
  rcases List.prefix_or_prefix_of_prefix hfirst hsecond with hfront | hfront
  · exact hsame hfront h
  · exact (hsame hfront h.symm).symm

/-! ### Pieces of a text -/

/-- Characters that stand between tokens: space, tab, carriage return and newline. -/
def blanks : List Char := [' ', '\t', '\r', '\n']

/-- The characters of a lexeme, and what may follow them. -/
inductive Source : Lexeme → List Char → List Char → Prop where
  /-- A word that is no keyword. -/
  | identifier {c : Char} {run rest : List Char} (hstart : startsWord c = true)
      (hrun : ∀ d ∈ run, continuesWord d = true)
      (hends : ∀ d ∈ rest.head?, continuesWord d = false)
      (hfree : ∀ word : Keyword, word.text ≠ String.ofList (c :: run)) :
      Source (.identifier (String.ofList (c :: run))) (c :: run) rest
  /-- A word that is a keyword. -/
  | keyword {rest : List Char} (word : Keyword)
      (hends : ∀ d ∈ rest.head?, continuesWord d = false) :
      Source (.keyword word) word.text.toList rest
  /-- Decimal digits. -/
  | natural {digits rest : List Char} {n : Nat} (hwrites : Writes digits n)
      (hends : ∀ d ∈ rest.head?, isDigit d = false) : Source (.integer n) digits rest
  /-- Decimal digits behind a minus sign. -/
  | negative {digits rest : List Char} {n : Nat} (hwrites : Writes digits n)
      (hends : ∀ d ∈ rest.head?, isDigit d = false) : Source (.integer (-n)) ('-' :: digits) rest
  /-- A mark. -/
  | mark {rest : List Char} (mark : Mark) : Source (.mark mark) [mark.char] rest

/-- A text that stands behind `before` and in front of `after` is blanks, comments and the given
tokens one after another. A comment goes on to the end of its line. -/
inductive Splits (after : List Char) : (before text : List Char) → List Token → Prop where
  /-- Nothing is left. -/
  | done {before : List Char} : Splits after before [] []
  /-- A blank comes first. -/
  | blank {before text : List Char} {tokens : List Token} {c : Char} (hblank : c ∈ blanks)
      (hrest : Splits after (before ++ [c]) text tokens) : Splits after before (c :: text) tokens
  /-- A comment comes first. -/
  | comment {before text : List Char} {tokens : List Token} {body : List Char}
      (hbody : ∀ d ∈ body, d ≠ '\n') (hends : ∀ d ∈ (text ++ after).head?, d = '\n')
      (hrest : Splits after (before ++ '#' :: body) text tokens) :
      Splits after before ('#' :: (body ++ text)) tokens
  /-- A token comes first. -/
  | token {before text : List Char} {tokens : List Token} {lexeme : Lexeme} {source : List Char}
      (hsource : Source lexeme source (text ++ after))
      (hrest : Splits after (before ++ source) text tokens) :
      Splits after before (source ++ text) (⟨lexeme, placeAfter before⟩ :: tokens)

/-- No blank, no comment and no token is in front. -/
def StartsNothing (text : List Char) : Prop :=
  (∀ c ∈ text.head?, c ∉ blanks ∧ c ≠ '#') ∧
    ∀ lexeme source rest, text = source ++ rest → ¬ Source lexeme source rest

/-! ### What a scan reads -/

theorem isBlank_iff : isBlank c = true ↔ c ∈ blanks := by
  simp [isBlank, blanks, or_assoc]

theorem pieceAt_blank (h : c ∈ blanks) (rest : List Char) : pieceAt c rest = .skip 0 := by
  rw [pieceAt, if_pos (isBlank_iff.2 h)]

/-- A comment goes on to the end of the line. -/
theorem pieceAt_comment {body : List Char} (hbody : ∀ d ∈ body, d ≠ '\n')
    (hends : ∀ d ∈ rest.head?, d = '\n') : pieceAt '#' (body ++ rest) = .skip body.length := by
  have hrun : (body ++ rest).takeWhile (· != '\n') = body :=
    takeWhile_append_eq_left_iff.2
      ⟨fun d hd ↦ bne_iff_ne.2 (hbody d hd), fun d hd ↦ by rw [hends d hd]; rfl⟩
  have hpiece : pieceAt '#' (body ++ rest) =
      .skip ((body ++ rest).takeWhile (· != '\n')).length := rfl
  rw [hpiece, hrun]

/-- The characters of a lexeme are read as it. -/
theorem Source.pieceAt_eq (h : Source lexeme source rest) :
    ∃ c run, source = c :: run ∧ pieceAt c (run ++ rest) = .token lexeme run.length := by
  cases h with
  | @identifier c run _ hstart hrun hends hfree =>
    refine ⟨c, run, rfl, ?_⟩
    have hnone : Keyword.ofText? (String.ofList (c :: run)) = none :=
      List.find?_eq_none.2 fun word _ ↦ by simpa using hfree word
    rw [pieceAt_word hstart hrun hends, Lexeme.ofWord, hnone]
  | keyword word hends =>
    obtain ⟨c, run, hword, hstart, hrun⟩ : ∃ c run, word.text.toList = c :: run ∧
        startsWord c = true ∧ ∀ d ∈ run, continuesWord d = true := by
      cases word <;> exact ⟨_, _, rfl, by decide, List.all_eq_true.1 (by decide)⟩
    refine ⟨c, run, hword, ?_⟩
    rw [pieceAt_word hstart hrun hends, ← hword, Lexeme.ofWord_text]
  | natural hwrites hends =>
    obtain ⟨hne, hdigits, rfl⟩ := writes_iff.1 hwrites
    obtain ⟨c, run, rfl⟩ := List.exists_cons_of_ne_nil hne
    exact ⟨c, run, rfl, pieceAt_digits hdigits hends⟩
  | @negative digits _ n hwrites hends =>
    obtain ⟨hne, hdigits, rfl⟩ := writes_iff.1 hwrites
    refine ⟨'-', digits, rfl, ?_⟩
    have hrun : (digits ++ rest).takeWhile isDigit = digits :=
      takeWhile_append_eq_left_iff.2 ⟨hdigits, hends⟩
    have hsigned : (digits ++ rest).head?.any isDigit = true := by
      rw [any_head?_eq, hrun]
      simpa using hne
    have hpiece : pieceAt '-' (digits ++ rest) =
        if (digits ++ rest).head?.any isDigit then
          .token (.integer (-(DecimalDigit.toNat ((digits ++ rest).takeWhile isDigit) : Int)))
            ((digits ++ rest).takeWhile isDigit).length
        else .illegal := rfl
    rw [hpiece, if_pos hsigned, hrun]
  | mark mark => exact ⟨mark.char, [], rfl, pieceAt_mark mark rest⟩

theorem Source.ne_nil (h : Source lexeme source rest) : source ≠ [] := by
  obtain ⟨c, run, rfl, _⟩ := h.pieceAt_eq
  exact List.cons_ne_nil _ _

/-- Where nothing starts, a scan reads nothing. -/
theorem pieceAt_of_startsNothing (h : StartsNothing (c :: rest)) : pieceAt c rest = .illegal := by
  obtain ⟨hfirst, hnone⟩ := h
  obtain ⟨hblank, hcomment⟩ := hfirst c rfl
  have hdigits : ¬ isDigit c = true := by
    intro hc
    obtain ⟨run, text, rfl, hrun, hends⟩ := exists_run isDigit rest
    have hwrites : Writes (c :: run) (DecimalDigit.toNat (c :: run)) :=
      writes_iff.2 ⟨List.cons_ne_nil _ _, List.forall_mem_cons.2 ⟨hc, hrun⟩, rfl⟩
    exact hnone _ _ text rfl (.natural hwrites hends)
  have hsigned : ¬ (c == '-' && rest.head?.any isDigit) = true := by
    intro hc
    obtain ⟨hsign, hdigit⟩ := Bool.and_eq_true_iff.1 hc
    obtain rfl := beq_iff_eq.1 hsign
    obtain ⟨run, text, rfl, hrun, hends⟩ := exists_run isDigit rest
    have hne : run ≠ [] := by
      rintro rfl
      obtain ⟨d, hd, hvalue⟩ := (Option.any_eq_true _ _).1 hdigit
      exact Bool.false_ne_true ((hends d hd).symm.trans hvalue)
    exact hnone _ _ text rfl (.negative (writes_iff.2 ⟨hne, hrun, rfl⟩) hends)
  have hword : ¬ startsWord c = true := by
    intro hc
    obtain ⟨run, text, rfl, hrun, hends⟩ := exists_run continuesWord rest
    by_cases hkeyword : ∃ word : Keyword, word.text = String.ofList (c :: run)
    · obtain ⟨word, hword⟩ := hkeyword
      refine hnone _ word.text.toList text ?_ (.keyword word hends)
      rw [hword, String.toList_ofList]
      rfl
    · exact hnone _ _ text rfl (.identifier hc hrun hends fun word hword ↦ hkeyword ⟨word, hword⟩)
  have hmark : Mark.ofChar? c = none := by
    refine List.find?_eq_none.2 fun mark _ hchar ↦ ?_
    obtain rfl := beq_iff_eq.1 hchar
    exact hnone _ [mark.char] rest rfl (.mark mark)
  rw [pieceAt, if_neg (isBlank_iff.not.2 hblank), if_neg hdigits, if_neg hsigned, if_neg hword,
    if_neg (by simpa using hcomment), hmark]

/-! ### Texts -/

/-- Every text splits up to its end, or up to a character that starts nothing. -/
theorem exists_splits (before chars : List Char) :
    ∃ text after tokens, chars = text ++ after ∧ Splits after before text tokens ∧
      (after = [] ∨ StartsNothing after) := by
  rcases chars with _ | ⟨c, rest⟩
  · exact ⟨[], [], [], rfl, .done, .inl rfl⟩
  by_cases hblank : c ∈ blanks
  · obtain ⟨text, after, tokens, rfl, hsplits, hafter⟩ := exists_splits (before ++ [c]) rest
    exact ⟨c :: text, after, tokens, rfl, .blank hblank hsplits, hafter⟩
  by_cases hcomment : c = '#'
  · subst hcomment
    obtain ⟨body, behind, hrest, hbody, hends⟩ := exists_run (· != '\n') rest
    have hlength : behind.length < ('#' :: rest).length := by
      rw [hrest, List.length_cons, List.length_append]
      omega
    obtain ⟨text, after, tokens, rfl, hsplits, hafter⟩ :=
      exists_splits (before ++ '#' :: body) behind
    refine ⟨'#' :: (body ++ text), after, tokens, by simp [hrest], .comment ?_ ?_ hsplits, hafter⟩
    · exact fun d hd ↦ bne_iff_ne.1 (hbody d hd)
    · exact fun d hd ↦ by simpa using hends d hd
  by_cases htoken : ∃ lexeme source behind, c :: rest = source ++ behind ∧
      Source lexeme source behind
  · obtain ⟨lexeme, source, behind, hchars, hsource⟩ := htoken
    have hlength : behind.length < (c :: rest).length := by
      have hpos := List.length_pos_iff.2 hsource.ne_nil
      rw [hchars, List.length_append]
      omega
    obtain ⟨text, after, tokens, rfl, hsplits, hafter⟩ := exists_splits (before ++ source) behind
    refine ⟨source ++ text, after, _, ?_, .token hsource hsplits, hafter⟩
    rw [hchars, List.append_assoc]
  · refine ⟨[], c :: rest, [], rfl, .done, .inr ⟨fun d hd ↦ ?_, fun lexeme source behind h hs ↦ ?_⟩⟩
    · obtain rfl := Option.some.inj hd
      exact ⟨hblank, hcomment⟩
    · exact htoken ⟨lexeme, source, behind, h, hs⟩
termination_by chars.length
decreasing_by
  · exact Nat.lt_succ_self _
  · exact hlength
  · exact hlength

/-- A scan follows a split. -/
theorem Splits.scanFrom_eq (h : Splits after before text tokens) :
    scanFrom 0 (placeAfter before) (text ++ after) =
      ⟨tokens ++ (scanFrom 0 (placeAfter (before ++ text)) after).tokens,
        (scanFrom 0 (placeAfter (before ++ text)) after).stop⟩ := by
  induction h with
  | done => rw [List.append_nil]; rfl
  | @blank before text tokens c hblank hrest ih =>
    have hpiece : pieceAt c ([] ++ (text ++ after)) = .skip ([] : List Char).length :=
      pieceAt_blank hblank _
    have hskip := scanFrom_skip hpiece (placeAfter before)
    rw [foldl_advance_placeAfter] at hskip
    rw [List.append_cons, ← ih]
    exact hskip
  | @comment before text tokens body hbody hends hrest ih =>
    have hskip := scanFrom_skip (pieceAt_comment hbody hends) (placeAfter before)
    rw [foldl_advance_placeAfter, ih] at hskip
    simpa using hskip
  | @token before text tokens lexeme source hsource hrest ih =>
    obtain ⟨c, run, rfl, hpiece⟩ := hsource.pieceAt_eq
    have htoken := scanFrom_token hpiece (placeAfter before)
    rw [foldl_advance_placeAfter, ih] at htoken
    simpa using htoken

/-- A token stands in a text behind `before` and in front of `rest`, with the characters `source`
between them. -/
structure Token.Occupies (token : Token) (text before source rest : List Char) : Prop where
  /-- The text has these parts. -/
  text_eq : text = before ++ (source ++ rest)
  /-- The position of the token is the place that the part before it leads to. -/
  position_eq : token.position = placeAfter before
  /-- The characters are those of a token. -/
  source : Source token.lexeme source rest

/-- A token stands in one place of a text, with one source. -/
theorem Token.Occupies.unique {token : Token} {other otherSource otherRest : List Char}
    (h : token.Occupies text before source rest)
    (h' : token.Occupies text other otherSource otherRest) :
    other = before ∧ otherSource = source := by
  have htext := h.text_eq.symm.trans h'.text_eq
  obtain rfl : other = before := by
    refine eq_of_placeAfter_eq ⟨_, h'.text_eq.symm⟩ ⟨_, h.text_eq.symm⟩ ?_
    exact h'.position_eq.symm.trans h.position_eq
  obtain ⟨c, run, rfl, hpiece⟩ := h.source.pieceAt_eq
  obtain ⟨d, otherRun, rfl, hotherPiece⟩ := h'.source.pieceAt_eq
  obtain ⟨rfl, hrest⟩ := List.cons.inj (List.append_cancel_left htext)
  change run ++ rest = otherRun ++ otherRest at hrest
  rw [hrest, hotherPiece] at hpiece
  obtain ⟨_, hlength⟩ := Piece.token.inj hpiece
  exact ⟨rfl, congrArg _ (List.append_inj_left hrest.symm hlength)⟩

/-- Every token of a split stands in the text that was split. -/
theorem Splits.exists_occupies (h : Splits after before text tokens) {token : Token}
    (htoken : token ∈ tokens) : ∃ front source rest,
      token.Occupies (before ++ (text ++ after)) (before ++ front) source rest := by
  induction h with
  | done => exact absurd htoken List.not_mem_nil
  | @blank before text tokens c hblank hrest ih =>
    obtain ⟨front, source, rest, hoccupies⟩ := ih htoken
    exact ⟨c :: front, source, rest, by simpa using hoccupies⟩
  | @comment before text tokens body hbody hends hrest ih =>
    obtain ⟨front, source, rest, hoccupies⟩ := ih htoken
    exact ⟨'#' :: (body ++ front), source, rest, by simpa using hoccupies⟩
  | @token before text tokens lexeme source hsource hrest ih =>
    rcases List.mem_cons.1 htoken with rfl | htoken
    · exact ⟨[], source, text ++ after, by simp, by simp, hsource⟩
    · obtain ⟨front, other, rest, hoccupies⟩ := ih htoken
      exact ⟨source ++ front, other, rest, by simpa using hoccupies⟩

/-- The second token starts behind the end of the first, wherever in the text they stand. -/
def Token.Precedes (text : List Char) (first second : Token) : Prop :=
  first.position.Before second.position ∧
    ∀ before source rest other otherSource otherRest,
      first.Occupies text before source rest → second.Occupies text other otherSource otherRest →
        before ++ source <+: other

/-- The tokens of a split follow one another without overlap. -/
theorem Splits.pairwise (h : Splits after before text tokens) :
    tokens.Pairwise (Token.Precedes (before ++ (text ++ after))) := by
  induction h with
  | done => exact .nil
  | blank hblank hrest ih => simpa using ih
  | comment hbody hends hrest ih => simpa using ih
  | @token before text tokens lexeme source hsource hrest ih =>
    have hwhole : before ++ source ++ (text ++ after) = before ++ (source ++ text ++ after) := by
      simp
    rw [hwhole] at ih
    refine List.pairwise_cons.2 ⟨fun second hsecond ↦ ?_, ih⟩
    have hfirst : Token.Occupies ⟨lexeme, placeAfter before⟩ (before ++ (source ++ text ++ after))
        before source (text ++ after) := ⟨by simp, rfl, hsource⟩
    obtain ⟨front, other, rest, hoccupies⟩ := hrest.exists_occupies hsecond
    rw [hwhole] at hoccupies
    constructor
    · rw [hoccupies.position_eq, List.append_assoc]
      exact placeAfter_before before (by simp [hsource.ne_nil])
    · intro before' source' rest' other' otherSource' otherRest' hfirst' hsecond'
      obtain ⟨rfl, rfl⟩ := hfirst.unique hfirst'
      obtain ⟨rfl, _⟩ := hoccupies.unique hsecond'
      exact List.prefix_append _ _

/-- A text that splits up to its end has the tokens of the split. -/
theorem Splits.tokenize_eq {text : String} (h : Splits [] [] text.toList tokens) :
    tokenize text = .ok tokens := by
  have hscan : Scan.ofText text = ⟨tokens, none⟩ := by
    have hfollowed := h.scanFrom_eq
    simp only [List.append_nil, scanFrom] at hfollowed
    exact hfollowed
  exact tokenize_eq_ok_iff.2 (by rw [hscan]; exact ⟨rfl, rfl⟩)

/-- A text that splits up to a character that starts nothing is refused for this character. -/
theorem Splits.tokenize_eq_error {text : String} (h : Splits (c :: rest) [] before tokens)
    (htext : text.toList = before ++ c :: rest) (hnothing : StartsNothing (c :: rest)) :
    tokenize text = .error (.grammar (.illegalCharacter c (placeAfter before))) := by
  have hstop : (Scan.ofText text).stop =
      some (.grammar (.illegalCharacter c (placeAfter before))) := by
    have hscan := congrArg Scan.stop h.scanFrom_eq
    rw [← htext, List.nil_append, scanFrom, pieceAt_of_startsNothing hnothing] at hscan
    exact hscan
  unfold tokenize
  dsimp only
  rw [hstop]

/-- A text has the tokens of its split, and has no other split. A text without tokens splits up to a
character that starts nothing, and this is the character that is reported, with its line and column.
Every token stands in the text at the place its position says, and the tokens follow one another
without overlap. -/
theorem tokenize_accounts (text : String) :
    (∀ tokens, tokenize text = .ok tokens ↔ Splits [] [] text.toList tokens) ∧
    (∀ fault, tokenize text = .error fault ↔ ∃ before c rest tokens,
      text.toList = before ++ c :: rest ∧ Splits (c :: rest) [] before tokens ∧
        StartsNothing (c :: rest) ∧
        fault = .grammar (.illegalCharacter c (placeAfter before)) ∧
        fault.message? = some ("Illegal character " ++ quoted (String.singleton c) ++
          s!" at line {(placeAfter before).line}, column {(placeAfter before).column}")) ∧
    ∀ tokens, tokenize text = .ok tokens →
      (∀ token ∈ tokens, ∃ before source rest,
        token.Occupies text.toList before source rest) ∧
      tokens.Pairwise (Token.Precedes text.toList) := by
  obtain ⟨front, after, found, htext, hsplits, hafter⟩ := exists_splits [] text.toList
  have hcases : (after = [] ∧ tokenize text = .ok found) ∨ ∃ c rest, after = c :: rest ∧
      StartsNothing (c :: rest) ∧
      tokenize text = .error (.grammar (.illegalCharacter c (placeAfter front))) := by
    cases after with
    | nil =>
      rw [List.append_nil] at htext
      subst htext
      exact .inl ⟨rfl, hsplits.tokenize_eq⟩
    | cons c rest =>
      have hnothing := hafter.resolve_left (List.cons_ne_nil _ _)
      exact .inr ⟨c, rest, rfl, hnothing, hsplits.tokenize_eq_error htext hnothing⟩
  have hsplit : ∀ tokens, tokenize text = .ok tokens ↔ Splits [] [] text.toList tokens := by
    refine fun tokens ↦ ⟨fun h ↦ ?_, fun h ↦ h.tokenize_eq⟩
    rcases hcases with ⟨rfl, hfound⟩ | ⟨_, _, _, _, hrefused⟩
    · obtain rfl := Except.ok.inj (hfound.symm.trans h)
      rw [htext, List.append_nil]
      exact hsplits
    · exact absurd (hrefused.symm.trans h) (by simp)
  refine ⟨hsplit, fun fault ↦ ⟨fun h ↦ ?_, ?_⟩, fun tokens h ↦ ⟨fun token htoken ↦ ?_, ?_⟩⟩
  · rcases hcases with ⟨_, hfound⟩ | ⟨c, rest, rfl, hnothing, hrefused⟩
    · exact absurd (hfound.symm.trans h) (by simp)
    · obtain rfl := Except.error.inj (hrefused.symm.trans h)
      exact ⟨front, c, rest, found, htext, hsplits, hnothing, rfl, rfl⟩
  · rintro ⟨before, c, rest, tokens, hbefore, hrest, hnothing, rfl, _⟩
    exact hrest.tokenize_eq_error hbefore hnothing
  · obtain ⟨before, source, rest, hoccupies⟩ := ((hsplit tokens).1 h).exists_occupies htoken
    rw [List.nil_append, List.append_nil] at hoccupies
    exact ⟨_, source, rest, hoccupies⟩
  · have hpairwise := ((hsplit tokens).1 h).pairwise
    rwa [List.nil_append, List.append_nil] at hpairwise

end Descriptor

end Stowage
