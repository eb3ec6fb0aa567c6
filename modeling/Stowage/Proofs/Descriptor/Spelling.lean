import Stowage.Proofs.Descriptor.Grammar
import Stowage.Proofs.Descriptor.Pieces
import Mathlib.Data.List.Basic

/-!
# How lexemes are spelled

A text is scanned to its end as the lexemes it was put together from: blanks are passed over, a mark
is itself whatever follows, and a word or an integer is read whole when what follows it continues
neither (`Breaks`). `ReadsAs` says what characters are scanned as, wherever they stand, so a text is
read from its front, one piece before the rest.
-/

set_option autoImplicit false

namespace Stowage

namespace DecimalDigit

/-- Between the ASCII digits and the next run of digits there are none. -/
theorem isDigit_eq_false {c : Char} (hlow : 0x3A ≤ c.toNat) (hhigh : c.toNat < 0x660) :
    isDigit c = false := by
  have hnone : zeros.find? (fun z ↦ decide (z ≤ c.toNat ∧ c.toNat < z + 10)) = none := by
    simp only [List.find?_eq_none, zeros, List.forall_mem_cons, decide_eq_true_eq]
    refine ⟨by omega, ?_⟩
    simp only [List.not_mem_nil, IsEmpty.forall_iff, implies_true, and_true]
    omega
  rw [isDigit, value?, hnone]
  rfl

/-- An ASCII digit is a decimal digit of the same value. -/
theorem value?_of_isDigit {c : Char} (h : c.isDigit = true) :
    value? c = some (c.toNat - '0'.toNat) := by
  obtain ⟨hlow, hhigh⟩ := Char.isDigit_iff_toNat.1 h
  have hvalue : ∀ n, 48 ≤ n → n ≤ 57 →
      (zeros.find? fun z ↦ decide (z ≤ n ∧ n < z + 10)).map (n - ·) = some (n - 48) := by
    intro n hlow hhigh
    have hfirst : decide (0x30 ≤ n ∧ n < 0x30 + 10) = true := decide_eq_true (by omega)
    simp only [zeros, List.find?_cons, hfirst]
    rfl
  exact hvalue c.toNat hlow hhigh

theorem isDigit_of_isDigit {c : Char} (h : c.isDigit = true) : isDigit c = true := by
  rw [isDigit, value?_of_isDigit h]
  rfl

/-- A number is read from its digits. -/
theorem toNat_toDigits (n : Nat) : toNat (Nat.toDigits 10 n) = n := by
  have hvalues : (Nat.toDigits 10 n).filterMap value? =
      (Nat.toDigits 10 n).map fun c ↦ c.toNat - '0'.toNat := by
    rw [← List.filterMap_eq_map]
    refine List.filterMap_congr fun c hc ↦ ?_
    exact value?_of_isDigit (Nat.isDigit_of_mem_toDigits (by decide) (by decide) hc)
  rw [toNat, hvalues, List.foldl_map, ← Nat.ofDigitChars_eq_foldl]
  exact Nat.ofDigitChars_ten_toDigits

end DecimalDigit

namespace Descriptor

open DecimalDigit (isDigit)

variable {c : Char} {cs : List Char} {ls : List Lexeme}

/-! ### Characters -/

theorem bounds_of_startsWord (h : startsWord c = true) : 65 ≤ c.toNat ∧ c.toNat ≤ 122 := by
  have hcases : (decide (c.val ≥ 65 ∧ c.val ≤ 90) || decide (c.val ≥ 97) && decide (c.val ≤ 122) ||
      c == '_') = true := h
  rw [Bool.or_eq_true, Bool.or_eq_true, Bool.and_eq_true, decide_eq_true_eq, decide_eq_true_eq,
    decide_eq_true_eq, beq_iff_eq] at hcases
  rcases hcases with (⟨hlow, hhigh⟩ | ⟨hlow, hhigh⟩) | rfl
  · have hlow : 65 ≤ c.toNat := UInt32.le_iff_toNat_le.1 hlow
    have hhigh : c.toNat ≤ 90 := UInt32.le_iff_toNat_le.1 hhigh
    omega
  · have hlow : 97 ≤ c.toNat := UInt32.le_iff_toNat_le.1 hlow
    have hhigh : c.toNat ≤ 122 := UInt32.le_iff_toNat_le.1 hhigh
    omega
  · decide

theorem isDigit_of_startsWord (h : startsWord c = true) : isDigit c = false := by
  obtain ⟨hlow, hhigh⟩ := bounds_of_startsWord h
  exact DecimalDigit.isDigit_eq_false (by omega) (by omega)

theorem beq_minus_of_startsWord (h : startsWord c = true) : (c == '-') = false := by
  rw [beq_eq_false_iff_ne]
  rintro rfl
  exact absurd h (by decide)

theorem isBlank_eq_false (h : 33 ≤ c.toNat) : isBlank c = false := by
  simp only [isBlank, Bool.or_eq_false_iff, beq_eq_false_iff_ne]
  refine ⟨⟨⟨?_, ?_⟩, ?_⟩, ?_⟩ <;> rintro rfl <;> exact absurd h (by decide)

theorem isBlank_of_isDigit (h : isDigit c = true) : isBlank c = false := by
  rw [Bool.eq_false_iff]
  intro hblank
  simp only [isBlank, Bool.or_eq_true, beq_iff_eq] at hblank
  rcases hblank with ((rfl | rfl) | rfl) | rfl <;> exact absurd h (by decide)

/-- No word and no integer goes on with the characters. -/
def Breaks (cs : List Char) : Prop :=
  ∀ c ∈ cs.head?, continuesWord c = false ∧ isDigit c = false

theorem breaks_nil : Breaks [] := fun _ h ↦ absurd h (by simp)

theorem breaks_cons (hword : continuesWord c = false) (hdigit : isDigit c = false) :
    Breaks (c :: cs) := by
  intro d hd
  obtain rfl := Option.some.inj hd
  exact ⟨hword, hdigit⟩

theorem breaks_mark (mark : Mark) : Breaks (mark.char :: cs) := by
  cases mark <;> exact breaks_cons (by decide) (by decide)

/-! ### Pieces -/

/-- A word goes on as long as the characters continue it. -/
theorem pieceAt_word {run : List Char} (hstart : startsWord c = true)
    (hrun : ∀ d ∈ run, continuesWord d = true) (hends : ∀ d ∈ cs.head?, continuesWord d = false) :
    pieceAt c (run ++ cs) = .token (.ofWord (c :: run)) run.length := by
  obtain ⟨hlow, _⟩ := bounds_of_startsWord hstart
  have hword : (run ++ cs).takeWhile continuesWord = run :=
    takeWhile_append_eq_left_iff.2 ⟨hrun, hends⟩
  rw [pieceAt, isBlank_eq_false (by omega), isDigit_of_startsWord hstart,
    beq_minus_of_startsWord hstart, hstart, hword]
  rfl

/-- So does an integer without a sign. -/
theorem pieceAt_digits {run : List Char} (hdigits : ∀ d ∈ c :: run, isDigit d = true)
    (hends : ∀ d ∈ cs.head?, isDigit d = false) :
    pieceAt c (run ++ cs) = .token (.integer (DecimalDigit.toNat (c :: run))) run.length := by
  obtain ⟨hfirst, hrun⟩ := List.forall_mem_cons.1 hdigits
  have hnumber : (run ++ cs).takeWhile isDigit = run :=
    takeWhile_append_eq_left_iff.2 ⟨hrun, hends⟩
  rw [pieceAt, isBlank_of_isDigit hfirst, hfirst, hnumber]
  rfl

/-- A mark is itself in front of anything. -/
theorem pieceAt_mark (mark : Mark) (cs : List Char) :
    pieceAt mark.char cs = .token (.mark mark) 0 := by
  cases mark <;> rfl

/-- The characters are scanned to their end as the lexemes, wherever they stand. -/
def ReadsAs (cs : List Char) (ls : List Lexeme) : Prop :=
  ∀ position, lexemes (scanFrom 0 position cs).tokens = ls ∧ (scanFrom 0 position cs).stop = none

/-- A scan passes over characters and starts behind them. -/
theorem scanFrom_append (run cs : List Char) (position : Position) :
    scanFrom run.length position (run ++ cs) = scanFrom 0 (run.foldl advance position) cs := by
  induction run generalizing position with
  | nil => rfl
  | cons c run ih => exact ih (advance position c)

/-- A piece without meaning is passed over. -/
theorem scanFrom_skip {run : List Char} (hpiece : pieceAt c (run ++ cs) = .skip run.length)
    (position : Position) :
    scanFrom 0 position (c :: (run ++ cs)) =
      scanFrom 0 ((c :: run).foldl advance position) cs := by
  rw [scanFrom, hpiece]
  exact scanFrom_append run cs _

/-- A piece that is a lexeme is the first token, in front of the others. -/
theorem scanFrom_token {run : List Char} {lexeme : Lexeme}
    (hpiece : pieceAt c (run ++ cs) = .token lexeme run.length) (position : Position) :
    scanFrom 0 position (c :: (run ++ cs)) =
      ⟨⟨lexeme, position⟩ :: (scanFrom 0 ((c :: run).foldl advance position) cs).tokens,
        (scanFrom 0 ((c :: run).foldl advance position) cs).stop⟩ := by
  rw [scanFrom, hpiece]
  dsimp only
  rw [scanFrom_append]
  rfl

namespace ReadsAs

theorem nil : ReadsAs [] [] := fun _ ↦ ⟨rfl, rfl⟩

theorem skip (run : List Char) (hpiece : pieceAt c (run ++ cs) = .skip run.length)
    (h : ReadsAs cs ls) : ReadsAs (c :: (run ++ cs)) ls := by
  intro position
  rw [scanFrom_skip hpiece]
  exact h _

theorem token (run : List Char) {lexeme : Lexeme}
    (hpiece : pieceAt c (run ++ cs) = .token lexeme run.length) (h : ReadsAs cs ls) :
    ReadsAs (c :: (run ++ cs)) (lexeme :: ls) := by
  intro position
  obtain ⟨hlexemes, hstop⟩ := h ((c :: run).foldl advance position)
  rw [scanFrom_token hpiece, lexemes_cons, hlexemes]
  exact ⟨rfl, hstop⟩

theorem space (h : ReadsAs cs ls) : ReadsAs (' ' :: cs) ls :=
  skip [] rfl h

theorem mark (mark : Mark) (h : ReadsAs cs ls) : ReadsAs (mark.char :: cs) (.mark mark :: ls) :=
  token [] (pieceAt_mark mark cs) h

theorem word {run : List Char} (hstart : startsWord c = true)
    (hrun : ∀ d ∈ run, continuesWord d = true) (hbreak : Breaks cs) (h : ReadsAs cs ls) :
    ReadsAs (c :: (run ++ cs)) (.ofWord (c :: run) :: ls) :=
  token run (pieceAt_word hstart hrun fun d hd ↦ (hbreak d hd).1) h

theorem natural (n : Nat) (hbreak : Breaks cs) (h : ReadsAs cs ls) :
    ReadsAs (Nat.toDigits 10 n ++ cs) (.integer n :: ls) := by
  have hdigits : ∀ d ∈ Nat.toDigits 10 n, isDigit d = true := fun d hd ↦
    DecimalDigit.isDigit_of_isDigit (Nat.isDigit_of_mem_toDigits (by decide) (by decide) hd)
  have hvalue := DecimalDigit.toNat_toDigits n
  obtain ⟨c, run, hrun⟩ := List.exists_cons_of_ne_nil (Nat.toDigits_ne_nil (n := n) (b := 10))
  rw [hrun] at hdigits hvalue ⊢
  have hpiece : pieceAt c (run ++ cs) = .token (.integer n) run.length :=
    hvalue ▸ pieceAt_digits hdigits fun d hd ↦ (hbreak d hd).2
  exact token run hpiece h

end ReadsAs

/-! ### Words and integers -/

/-- The spelling of an identifier: a word that is no keyword. -/
def IsIdentifier (name : String) : Prop :=
  name.toList.head?.any startsWord = true ∧ name.toList.all continuesWord = true ∧
    Keyword.ofText? name = none

instance (name : String) : Decidable (IsIdentifier name) :=
  inferInstanceAs (Decidable (_ ∧ _ ∧ _))

variable {name : String}

theorem ReadsAs.ofWord (hstart : name.toList.head?.any startsWord = true)
    (hword : name.toList.all continuesWord = true) (hbreak : Breaks cs) (h : ReadsAs cs ls) :
    ReadsAs (name.toList ++ cs) (.ofWord name.toList :: ls) := by
  rcases hname : name.toList with _ | ⟨c, run⟩
  · rw [hname] at hstart
    exact absurd hstart (by simp)
  · rw [hname] at hstart hword
    rw [List.all_eq_true] at hword
    exact .word hstart (fun d hd ↦ hword d (List.mem_cons_of_mem _ hd)) hbreak h

theorem ReadsAs.identifier (hname : IsIdentifier name) (hbreak : Breaks cs) (h : ReadsAs cs ls) :
    ReadsAs (name.toList ++ cs) (.identifier name :: ls) := by
  obtain ⟨hstart, hword, hkeyword⟩ := hname
  have hlexeme : Lexeme.ofWord name.toList = .identifier name := by
    simp only [Lexeme.ofWord, String.ofList_toList, hkeyword]
  exact hlexeme ▸ .ofWord hstart hword hbreak h

/-- The spelling of a keyword is that keyword. -/
theorem Lexeme.ofWord_text (word : Keyword) : ofWord word.text.toList = .keyword word := by
  cases word <;> decide

theorem ReadsAs.keyword (word : Keyword) (hbreak : Breaks cs) (h : ReadsAs cs ls) :
    ReadsAs (word.text.toList ++ cs) (.keyword word :: ls) := by
  refine Lexeme.ofWord_text word ▸ .ofWord ?_ ?_ hbreak h <;> cases word <;> decide

/-- An integer from zero on. -/
theorem ReadsAs.integer {value : Int} (hvalue : 0 ≤ value) (hbreak : Breaks cs)
    (h : ReadsAs cs ls) : ReadsAs ((toString value).toList ++ cs) (.integer value :: ls) := by
  obtain ⟨n, rfl⟩ := Int.eq_ofNat_of_zero_le hvalue
  have hdigits : (toString (n : Int)).toList = Nat.toDigits 10 n := by
    change (toString n).toList = _
    rw [Nat.toString_eq_ofList_toDigits, String.toList_ofList]
  exact hdigits ▸ .natural n hbreak h

end Descriptor

end Stowage
