/-
# Gaps and lexemes as texts

What a source text is made of, said without reading it: which texts are gaps,
which texts are lexemes before which rest, which texts begin with neither, and at
which place a text stands. Reading a gap or a lexeme finds exactly these.

A lexeme is maximal, so it is a lexeme only before a rest that cannot make it
longer. A text that begins with no lexeme has a cause of its own.

Key definitions: `placeAfter`, `GapText`, `LastGapText`, `numeral`, `Lexeme`, `Malformed`.
Key theorems: `placeAfter_append`, `placeAfter_le`, `skipGap_append`, `gapSplit`, `readLexeme_of_lexeme`,
`readLexeme_of_malformed`, `LeavesGap.judged`.
-/
import Mathlib
import Chordal.Token.Lexer
import Chordal.Proofs.Finite

namespace Chordal.Token

-- The equations of the recursion, made once before the proofs that rewrite with them.
attribute [local simp] skipGap

/-! ### Places -/

/-- The place of what stands behind `before`: one line more than it has line feeds,
and one column more than it has characters behind the last of them. -/
def placeAfter (before : List Char) : Span :=
  ⟨before.count '\n' + 1, (before.rtakeWhile (· != '\n')).length + 1⟩

theorem placeAfter_concat (before : List Char) (c : Char) :
    placeAfter (before ++ [c]) = (placeAfter before).next c := by
  by_cases hc : c = '\n'
  · subst hc
    simp [placeAfter, Span.next, List.count_append]
  · have hcount : [c].count '\n' = 0 := by simp [hc]
    simp [placeAfter, Span.next, hc, List.count_append, hcount]

/-- Going on from the place behind a text leads to the place behind the longer text. -/
theorem placeAfter_append (cs : List Char) : ∀ before : List Char,
    placeAfter (before ++ cs) = (placeAfter before).advance cs := by
  induction cs with
  | nil => exact fun before => by rw [List.append_nil]; rfl
  | cons c cs ih =>
    intro before
    rw [List.append_cons, ih, placeAfter_concat]
    rfl

/-- Lines and columns go no further than the text before them is long. -/
theorem placeAfter_le (before : List Char) :
    (placeAfter before).line ≤ before.length + 1 ∧ (placeAfter before).column ≤ before.length + 1 := by
  have hline : before.count '\n' ≤ before.length := List.count_le_length
  have hcolumn : (before.rtakeWhile (· != '\n')).length ≤ before.length :=
    (List.rtakeWhile_suffix _ before).length_le
  exact ⟨Nat.succ_le_succ hline, Nat.succ_le_succ hcolumn⟩

/-! ### Gaps -/

/-- Blank characters and comments that are closed, one behind another. -/
inductive GapText : List Char → Prop
  | nil : GapText []
  | blank {c cs} : Source.isBlank c = true → GapText cs → GapText (c :: cs)
  | lineComment {body cs} : '\n' ∉ body → GapText cs →
      GapText ('/' :: '/' :: (body ++ '\n' :: cs))
  | blockComment {body cs} : ¬ ['*', '/'] <:+: body → GapText cs →
      GapText ('/' :: '*' :: (body ++ '*' :: '/' :: cs))

/-- A gap at the end of a text. A line comment may end with the text. -/
inductive LastGapText : List Char → Prop
  | closed {g} : GapText g → LastGapText g
  | unclosed {g body} : GapText g → '\n' ∉ body → LastGapText (g ++ '/' :: '/' :: body)

/-- The text begins with a comment. -/
def OpensComment (cs : List Char) : Prop := ['/', '/'] <+: cs ∨ ['/', '*'] <+: cs

/-- The text begins with a character that belongs to no gap. -/
def LeavesGap (cs : List Char) : Prop :=
  ¬ OpensComment cs ∧ ∃ c rest, cs = c :: rest ∧ Source.isBlank c = false

section Characters

variable {c : Char} {cs ds rest : List Char} {base : Nat}

theorem skipGap_blank (h : Source.isBlank c = true) (p : Span) (cs : List Char) :
    skipGap .between p (c :: cs) = skipGap .between (p.next c) cs := by
  have hslash : c ≠ '/' := by
    rintro rfl
    exact absurd h (by decide)
  rw [skipGap, if_pos h]
  · exact fun _ hc _ => hslash hc
  · exact fun _ hc _ => hslash hc

theorem skipGap_leaves (h : LeavesGap cs) (p : Span) : skipGap .between p cs = .ok (p, cs) := by
  obtain ⟨hopens, c, rest, rfl, hblank⟩ := h
  rw [skipGap, if_neg (by simp [hblank])]
  · rintro rest' rfl rfl
    exact hopens (Or.inl ⟨rest', rfl⟩)
  · rintro rest' rfl rfl
    exact hopens (Or.inr ⟨rest', rfl⟩)

theorem skipGap_line (cs : List Char) : ∀ (body : List Char) (p : Span), '\n' ∉ body →
    skipGap .lineComment p (body ++ '\n' :: cs) = skipGap .between (p.advance (body ++ ['\n'])) cs
  | [], p, _ => by
    rw [List.nil_append, skipGap, if_pos rfl]
    rfl
  | c :: body, p, h => by
    obtain ⟨hc, hbody⟩ := not_or.mp (mt List.mem_cons.mpr h)
    rw [List.cons_append, skipGap, if_neg (Ne.symm hc), skipGap_line cs body _ hbody]
    rfl

theorem skipGap_line_end : ∀ (body : List Char) (p : Span), '\n' ∉ body →
    skipGap .lineComment p body = .ok (p.advance body, [])
  | [], p, _ => rfl
  | c :: body, p, h => by
    obtain ⟨hc, hbody⟩ := not_or.mp (mt List.mem_cons.mpr h)
    rw [skipGap, if_neg (Ne.symm hc), skipGap_line_end body _ hbody]
    rfl

/-- Inside a block comment a character is skipped unless it closes the comment. -/
theorem skipGap_inside (h : ¬ ['*', '/'] <+: c :: cs) (opened p : Span) :
    skipGap (.blockComment opened) p (c :: cs) = skipGap (.blockComment opened) (p.next c) cs := by
  rw [skipGap]
  rintro rest rfl rfl
  exact h ⟨rest, rfl⟩

theorem skipGap_block (cs : List Char) (opened : Span) : ∀ (body : List Char) (p : Span),
    ¬ ['*', '/'] <:+: body →
    skipGap (.blockComment opened) p (body ++ '*' :: '/' :: cs) =
      skipGap .between (p.advance (body ++ ['*', '/'])) cs
  | [], p, _ => rfl
  | c :: body, p, h => by
    have hbody : ¬ ['*', '/'] <:+: body := fun hin => h (hin.trans (List.suffix_cons c body).isInfix)
    have hhere : ¬ ['*', '/'] <+: c :: (body ++ '*' :: '/' :: cs) := by
      intro hpre
      cases body with
      | nil =>
        -- the character behind is the star of the closing mark
        obtain ⟨-, hpre⟩ := List.cons_prefix_cons.mp hpre
        exact absurd (List.cons_prefix_cons.mp hpre).1 (by decide)
      | cons d body =>
        obtain ⟨rfl, hnext⟩ := List.cons_prefix_cons.mp hpre
        obtain ⟨rfl, -⟩ := List.cons_prefix_cons.mp hnext
        exact h (List.prefix_append ['*', '/'] body).isInfix
    rw [List.cons_append, skipGap_inside hhere, skipGap_block cs opened body _ hbody]
    rfl

theorem skipGap_block_end (opened : Span) : ∀ (body : List Char) (p : Span),
    ¬ ['*', '/'] <:+: body →
    skipGap (.blockComment opened) p body = .error (.lexical opened .unterminatedComment)
  | [], p, _ => rfl
  | c :: body, p, h => by
    rw [skipGap_inside fun hpre => h hpre.isInfix]
    exact skipGap_block_end opened body _ fun hin => h (hin.trans (List.suffix_cons c body).isInfix)

/-- A gap is skipped, whatever stands behind it. -/
theorem skipGap_append {g : List Char} (h : GapText g) (p : Span) (cs : List Char) :
    skipGap .between p (g ++ cs) = skipGap .between (p.advance g) cs := by
  induction h generalizing p with
  | nil => rfl
  | blank hc _ ih =>
    rw [List.cons_append, skipGap_blank hc, ih]
    rfl
  | @lineComment body g hbody _ ih =>
    rw [List.cons_append, List.cons_append, List.append_assoc, List.cons_append, skipGap,
      skipGap_line _ body _ hbody, ih]
    simp [Span.advance]
  | @blockComment body g hbody _ ih =>
    rw [List.cons_append, List.cons_append, List.append_assoc, List.cons_append, List.cons_append, skipGap,
      skipGap_block _ p body _ hbody, ih]
    simp [Span.advance]

theorem skipGap_last {g : List Char} (h : LastGapText g) (p : Span) :
    skipGap .between p g = .ok (p.advance g, []) := by
  cases h with
  | closed hg =>
    have hskip := skipGap_append hg p []
    rwa [List.append_nil] at hskip
  | @unclosed g body hg hbody =>
    rw [skipGap_append hg, skipGap, skipGap_line_end body _ hbody]
    simp [Span.advance]

/-- A text goes up to a character and on behind it, or the character is not in it. -/
theorem split_at_mem (c : Char) (cs : List Char) :
    c ∉ cs ∨ ∃ body rest, cs = body ++ c :: rest ∧ c ∉ body := by
  by_cases h : c ∈ cs
  · obtain ⟨body, rest, hcs, hbody⟩ := List.eq_append_cons_of_mem h
    exact Or.inr ⟨body, rest, hcs, hbody⟩
  · exact Or.inl h

/-- A comment is closed at the first place where it can be, or nowhere. -/
theorem split_at_close : ∀ cs : List Char,
    ¬ ['*', '/'] <:+: cs ∨ ∃ body rest, cs = body ++ '*' :: '/' :: rest ∧ ¬ ['*', '/'] <:+: body
  | [] => Or.inl (by simp)
  | c :: cs => by
    by_cases hpre : ['*', '/'] <+: c :: cs
    · obtain ⟨rest, hrest⟩ := hpre
      exact Or.inr ⟨[], rest, hrest.symm, by simp⟩
    rcases split_at_close cs with hnone | ⟨body, rest, rfl, hbody⟩
    · refine Or.inl fun hin => ?_
      rcases List.infix_cons_iff.mp hin with hin | hin
      · exact hpre hin
      · exact hnone hin
    · refine Or.inr ⟨c :: body, rest, rfl, fun hin => ?_⟩
      rcases List.infix_cons_iff.mp hin with hin | hin
      · exact hpre (hin.trans (List.prefix_append (c :: body) ('*' :: '/' :: rest)))
      · exact hbody hin

/-- What a text may be: a gap, a gap before something that belongs to no gap, or a gap
before a comment that is never closed. -/
inductive GapSplit : List Char → Prop
  | last {g} : LastGapText g → GapSplit g
  | leaves {g rest} : GapText g → LeavesGap rest → GapSplit (g ++ rest)
  | unterminated {g body} : GapText g → ¬ ['*', '/'] <:+: body → GapSplit (g ++ '/' :: '*' :: body)

/-- The first piece of a gap in front of what is known of the text behind it. -/
theorem GapSplit.piece (h : GapSplit cs) (piece : List Char)
    (hpiece : ∀ {g}, GapText g → GapText (piece ++ g)) : GapSplit (piece ++ cs) := by
  cases h with
  | last h =>
    refine .last ?_
    cases h with
    | closed hg => exact .closed (hpiece hg)
    | unclosed hg hbody =>
      rw [← List.append_assoc]
      exact .unclosed (hpiece hg) hbody
  | leaves hg hrest =>
    rw [← List.append_assoc]
    exact .leaves (hpiece hg) hrest
  | unterminated hg hbody =>
    rw [← List.append_assoc]
    exact .unterminated (hpiece hg) hbody

/-- Every text begins with a gap, which may be empty. -/
theorem gapSplit (cs : List Char) : GapSplit cs := by
  induction hn : cs.length using Nat.strong_induction_on generalizing cs with
  | _ n ih =>
    subst hn
    by_cases hline : ['/', '/'] <+: cs
    · obtain ⟨rest, rfl⟩ := hline
      rcases split_at_mem '\n' rest with hnone | ⟨body, rest, rfl, hbody⟩
      · exact .last (.unclosed .nil hnone)
      · have hrest := ih rest.length (by simp; omega) rest rfl
        have hpiece := hrest.piece ('/' :: '/' :: (body ++ ['\n'])) fun hg => by
          simpa using GapText.lineComment hbody hg
        simpa using hpiece
    by_cases hblock : ['/', '*'] <+: cs
    · obtain ⟨rest, rfl⟩ := hblock
      rcases split_at_close rest with hnone | ⟨body, rest, rfl, hbody⟩
      · exact .unterminated .nil hnone
      · have hrest := ih rest.length (by simp; omega) rest rfl
        have hpiece := hrest.piece ('/' :: '*' :: (body ++ ['*', '/'])) fun hg => by
          simpa using GapText.blockComment hbody hg
        simpa using hpiece
    cases cs with
    | nil => exact .last (.closed .nil)
    | cons c cs =>
      by_cases hblank : Source.isBlank c = true
      · exact (ih cs.length (by simp) cs rfl).piece [c] (.blank hblank)
      · exact .leaves .nil ⟨not_or.mpr ⟨hline, hblock⟩, c, cs, rfl, by simpa using hblank⟩

/-! ### Characters of words and numbers -/

/-- The digits, each at its value. -/
def digits : List Char :=
  ['0', '1', '2', '3', '4', '5', '6', '7', '8', '9', 'a', 'b', 'c', 'd', 'e', 'f']

/-- The value of a digit, a capital letter like a small one. A character that is no
digit has the value sixteen. -/
def digit (c : Char) : Nat := digits.idxOf c.toLower

/-- The number that digits write in a base, the last of them the lowest. -/
def numeral (base : Nat) (ds : List Char) : Nat := Nat.ofDigits base (ds.reverse.map digit)

/-- What holds of the first 128 characters one by one and of all others holds of every
character. -/
theorem forall_char {P : Char → Prop} (hascii : ∀ n < 128, P (Char.ofNat n))
    (hbeyond : ∀ c : Char, 128 ≤ c.toNat → P c) (c : Char) : P c := by
  by_cases h : c.toNat < 128
  · exact Char.ofNat_toNat c ▸ hascii c.toNat h
  · exact hbeyond c (not_lt.mp h)

theorem isWordChar_beyond (h : 128 ≤ c.toNat) : isWordChar c = false := by
  have hval : 128 ≤ c.val.toNat := h
  have hunderscore : c ≠ '_' := by
    rintro rfl
    exact absurd h (by decide)
  simp only [isWordChar, Char.isAlphanum, Char.isAlpha, Char.isUpper, Char.isLower, Char.isDigit, hunderscore,
    beq_eq_false_iff_ne.mpr, ne_eq, not_false_eq_true, Bool.or_false, Bool.or_eq_false_iff,
    Bool.and_eq_false_iff, decide_eq_false_iff_not, not_and, UInt32.le_iff_toNat_le, ge_iff_le]
  have hz : 'z'.val.toNat = 122 := rfl
  have hZ : 'Z'.val.toNat = 90 := rfl
  have h9 : '9'.val.toNat = 57 := rfl
  omega

theorem digit_beyond (h : 128 ≤ c.toNat) : digit c = 16 := by
  have hlower : c.toLower = c := by
    have hval : 128 ≤ c.val.toNat := h
    have hZ : 'Z'.val.toNat = 90 := rfl
    rw [Char.toLower, dif_neg]
    rw [UInt32.le_iff_toNat_le]
    omega
  have hall : ∀ d ∈ digits, d.toNat < 128 := by simp [digits]
  rw [digit, hlower]
  exact List.idxOf_eq_length fun hmem => absurd (hall c hmem) (by omega)

theorem digitValue?_eq : ∀ c : Char, digitValue? c = if digit c < 16 then some (digit c) else none := by
  refine forall_char (by decide +kernel) fun c h => ?_
  have hval : 128 ≤ c.val.toNat := h
  have h9 : '9'.val.toNat = 57 := rfl
  have hf : 'f'.val.toNat = 102 := rfl
  have hF : 'F'.val.toNat = 70 := rfl
  have hbound : ∀ d : Char, d.val.toNat < 128 → ¬ c ≤ d := fun d hd => by
    rw [Char.le_def, UInt32.le_iff_toNat_le]
    omega
  rw [digit_beyond h, if_neg (lt_irrefl 16), digitValue?]
  simp [hbound '9' (by omega), hbound 'f' (by omega), hbound 'F' (by omega)]

theorem isHexDigit_iff : isHexDigit c = true ↔ digit c < 16 := by
  rw [isHexDigit, digitValue?_eq]
  split_ifs with h
  · simp [h]
  · simp [h]

theorem isDigit_iff : ∀ {c : Char}, c.isDigit = true ↔ digit c < 10 := by
  refine @(forall_char (by decide +kernel) fun c h => ?_)
  have hdigit : c.isDigit = false := by
    have hword := isWordChar_beyond h
    simp only [isWordChar, Char.isAlphanum, Bool.or_eq_false_iff] at hword
    exact hword.1.2
  rw [hdigit, digit_beyond h]
  decide

/-- Digits and what words begin with are characters of words. -/
theorem isWordChar_of_start (h : isWordStart c = true) : isWordChar c = true := by
  rw [isWordStart, Bool.or_eq_true] at h
  rw [isWordChar, Char.isAlphanum, Bool.or_eq_true, Bool.or_eq_true]
  exact h.imp_left Or.inl

theorem isWordChar_of_digit : ∀ {c : Char}, digit c < 16 → isWordChar c = true :=
  @(forall_char (by decide +kernel) fun c h hdigit => by
    rw [digit_beyond h] at hdigit
    exact absurd hdigit (lt_irrefl 16))

/-- No character of a word is blank or opens a comment. -/
theorem not_gap_of_isWordChar : ∀ {c : Char}, isWordChar c = true → Source.isBlank c = false ∧ c ≠ '/' :=
  @(forall_char (by decide +kernel) fun c h hword => by
    rw [isWordChar_beyond h] at hword
    cases hword)

theorem not_start_of_digit : ∀ {c : Char}, digit c < 10 → isWordStart c = false :=
  @(forall_char (by decide +kernel) fun c h hdigit => by
    rw [digit_beyond h] at hdigit
    exact absurd hdigit (by decide))

theorem digitsValue_eq (h : ∀ d ∈ ds, digit d < 16) : digitsValue base ds = numeral base ds := by
  induction ds using List.reverseRecOn with
  | nil => rfl
  | append_singleton ds d ih =>
    have hd := h d (by simp)
    have hds := ih fun e he => h e (by simp [he])
    rw [numeral, List.reverse_append, List.reverse_singleton, List.singleton_append, List.map_cons,
      Nat.ofDigits_cons, ← numeral, ← hds, digitsValue, List.foldl_append, List.foldl_cons, List.foldl_nil,
      digitValue?_eq, if_pos hd, Option.getD_some, ← digitsValue]
    ring

end Characters

/-! ### Lexemes -/

/-- A word or a number ends before the text: the text does not begin with a character
of words. -/
def EndsWord (rest : List Char) : Prop := ∀ c ∈ rest.head?, isWordChar c = false

/-- The characters between the two parts of the mark of a hexadecimal literal. -/
def hexMarks : List Char := ['x', 'X']

/-- A text is a lexeme of the given kind before the rest of a text. It is the longest
one: nothing of the rest can be added to it. -/
inductive Lexeme : (lexeme rest : List Char) → Kind → Prop
  | word {c cs rest} : isWordStart c = true → (∀ d ∈ cs, isWordChar d = true) → EndsWord rest →
      Lexeme (c :: cs) rest (.ofWord (String.ofList (c :: cs)))
  | decimal {ds rest value} : ds ≠ [] → (∀ d ∈ ds, digit d < 10) → (ds.head? = some '0' → ds = ['0']) →
      numeral 10 ds ≤ 2 ^ 31 → value.toInt = (numeral 10 ds : Int).bmod (2 ^ 32) → EndsWord rest →
      Lexeme ds rest (.number value)
  | hex {x ds rest value} : x ∈ hexMarks → ds ≠ [] → (∀ d ∈ ds, digit d < 16) →
      numeral 16 ds ≤ 2 ^ 32 - 1 → value.toInt = (numeral 16 ds : Int).bmod (2 ^ 32) → EndsWord rest →
      Lexeme ('0' :: x :: ds) rest (.number value)
  | operator {s k rest} : (s, k) ∈ operators → (∀ o ∈ operators, o.1 <+: s ++ rest → o.1.length ≤ s.length) →
      ¬ OpensComment (s ++ rest) → Lexeme s rest k

/-- A text begins with no lexeme, for the given cause: with a number that runs into a
word, has no digits, a digit too many or too large a value, or with a character that
begins nothing. -/
inductive Malformed : (text : List Char) → LexicalCause → Prop
  | hexTrailing {x ds c rest} : x ∈ hexMarks → (∀ d ∈ ds, digit d < 16) → isWordChar c = true →
      ¬ digit c < 16 → Malformed ('0' :: x :: (ds ++ c :: rest)) (.trailingCharacter c)
  | hexEmpty {x rest} : x ∈ hexMarks → EndsWord rest → Malformed ('0' :: x :: rest) .hexWithoutDigits
  | hexLarge {x ds rest} : x ∈ hexMarks → ds ≠ [] → (∀ d ∈ ds, digit d < 16) → EndsWord rest →
      2 ^ 32 - 1 < numeral 16 ds → Malformed ('0' :: x :: (ds ++ rest)) (.hexOutOfRange (String.ofList ds))
  | decimalTrailing {ds c rest} : ds ≠ [] → (∀ d ∈ ds, digit d < 10) → isWordChar c = true →
      ¬ digit c < 10 → (ds = ['0'] → c ∉ hexMarks) → Malformed (ds ++ c :: rest) (.trailingCharacter c)
  | leadingZero {ds rest} : ds ≠ [] → (∀ d ∈ ds, digit d < 10) → EndsWord rest →
      Malformed ('0' :: (ds ++ rest)) (.leadingZero (String.ofList ('0' :: ds)))
  | decimalLarge {ds rest} : ds ≠ [] → (∀ d ∈ ds, digit d < 10) → ds.head? ≠ some '0' → EndsWord rest →
      2 ^ 31 < numeral 10 ds → Malformed (ds ++ rest) (.decimalOutOfRange (String.ofList ds))
  | character {c rest} : Source.isBlank c = false → isWordStart c = false → ¬ digit c < 10 →
      (∀ o ∈ operators, o.1.head? ≠ some c) → Malformed (c :: rest) (.unexpectedCharacter c)

variable {c x : Char} {cs ds rest text lexeme : List Char} {base : Nat} {k : Kind}

/-- What is taken from a text while a test holds, and what is left. -/
theorem span_append {test : Char → Bool} (h : ∀ c ∈ cs, test c = true)
    (hrest : ∀ c ∈ rest.head?, test c = false) :
    (cs ++ rest).takeWhile test = cs ∧ (cs ++ rest).dropWhile test = rest := by
  rw [List.takeWhile_append_of_pos h, List.dropWhile_append_of_pos h]
  cases rest with
  | nil => simp
  | cons c rest =>
    have hc := hrest c rfl
    simp [hc]

/-- A text goes on while a test holds and ends or goes on with a character of which it
does not hold. -/
theorem exists_span (test : Char → Bool) (cs : List Char) :
    ∃ front rest, cs = front ++ rest ∧ (∀ c ∈ front, test c = true) ∧ ∀ c ∈ rest.head?, test c = false := by
  refine ⟨cs.takeWhile test, cs.dropWhile test, List.takeWhile_append_dropWhile.symm, fun c hc =>
    List.mem_takeWhile_imp hc, fun c hc => ?_⟩
  have := List.head?_dropWhile_not test cs
  simp_all

/-! ### Reading a lexeme -/

theorem startsHex_iff : startsHex cs = true ↔ ∃ x rest, cs = '0' :: x :: rest ∧ x ∈ hexMarks := by
  constructor
  · intro h
    unfold startsHex at h
    split at h
    · next x rest =>
      exact ⟨x, rest, rfl, by simpa [hexMarks] using h⟩
    · cases h
  · rintro ⟨x, rest, rfl, hx⟩
    simpa [startsHex, hexMarks] using hx

theorem endOfNumber_ok (h : EndsWord rest) (p : Span) : endOfNumber p rest = .ok () := by
  cases rest with
  | nil => rfl
  | cons c rest => rw [endOfNumber, if_neg (by simp [h c rfl])]

theorem endOfNumber_error (h : isWordChar c = true) (p : Span) (rest : List Char) :
    endOfNumber p (c :: rest) = .error (.lexical p (.trailingCharacter c)) := by
  rw [endOfNumber, if_pos h]

theorem EndsWord.not_digit (h : EndsWord rest) (hbase : base ≤ 16) :
    ∀ c ∈ rest.head?, ¬ digit c < base := by
  intro c hc hdigit
  have hword := isWordChar_of_digit (hdigit.trans_le hbase)
  rw [h c hc] at hword
  cases hword

theorem hexMark_spec (h : x ∈ hexMarks) : isWordChar x = true ∧ ¬ digit x < 16 := by
  simp only [hexMarks, List.mem_cons, List.not_mem_nil, or_false] at h
  rcases h with rfl | rfl <;> decide +kernel

theorem EndsWord.not_hexMark (h : EndsWord rest) : ∀ c ∈ rest.head?, c ∉ hexMarks := by
  intro c hc hmark
  have hword := (hexMark_spec hmark).1
  rw [h c hc] at hword
  cases hword

/-- The digits of a hexadecimal literal are read to their end, then judged. -/
theorem readLexeme_hex (hx : x ∈ hexMarks) (hds : ∀ d ∈ ds, digit d < 16)
    (hrest : ∀ c ∈ rest.head?, ¬ digit c < 16) (p : Span) :
    readLexeme p '0' (x :: (ds ++ rest)) =
      (do endOfNumber p rest; return ('0' :: x :: ds, ← hexNumber p ds)) := by
  obtain ⟨htake, hdrop⟩ := span_append (fun d hd => isHexDigit_iff.mpr (hds d hd))
    fun c hc => Bool.eq_false_iff.mpr (mt isHexDigit_iff.mp (hrest c hc))
  unfold readLexeme
  dsimp only
  rw [if_neg (by decide), if_pos (by decide), if_pos (startsHex_iff.mpr ⟨x, _, rfl, hx⟩)]
  simp only [List.drop_succ_cons, List.drop_zero, htake, hdrop, List.take_succ_cons, List.take_zero,
    List.cons_append, List.nil_append]

/-- The digits of a decimal literal are read to their end, then judged. -/
theorem readLexeme_decimal (hds : ∀ d ∈ c :: ds, digit d < 10)
    (hrest : ∀ e ∈ rest.head?, ¬ digit e < 10)
    (hmark : c :: ds = ['0'] → ∀ e ∈ rest.head?, e ∉ hexMarks) (p : Span) :
    readLexeme p c (ds ++ rest) = (do endOfNumber p rest; return (c :: ds, ← decimalNumber p (c :: ds))) := by
  obtain ⟨htake, hdrop⟩ := span_append (fun d hd => isDigit_iff.mpr (hds d hd))
    fun c hc => Bool.eq_false_iff.mpr (mt isDigit_iff.mp (hrest c hc))
  have hc := hds c List.mem_cons_self
  have hstarts : ¬ startsHex (c :: (ds ++ rest)) = true := by
    rw [startsHex_iff]
    rintro ⟨x, behind, htext, hx⟩
    obtain ⟨rfl, hbehind⟩ := List.cons.inj htext
    cases ds with
    | nil =>
      rw [List.nil_append] at hbehind
      exact hmark rfl x (hbehind ▸ rfl) hx
    | cons e ds =>
      -- the mark is no digit
      obtain rfl : e = x := (List.cons.inj hbehind).1
      exact (hexMark_spec hx).2 ((hds e (by simp)).trans (by decide))
  unfold readLexeme
  dsimp only
  rw [if_neg (by rw [not_start_of_digit hc]; decide), if_pos (isDigit_iff.mpr hc), if_neg hstarts,
    ← List.cons_append, htake, hdrop]

theorem hexNumber_ok {value : Word} (hne : ds ≠ []) (hds : ∀ d ∈ ds, digit d < 16)
    (hle : numeral 16 ds ≤ 2 ^ 32 - 1) (hvalue : value.toInt = (numeral 16 ds : Int).bmod (2 ^ 32))
    (p : Span) : hexNumber p ds = .ok (.number value) := by
  obtain rfl : value = BitVec.ofNat 32 (numeral 16 ds) :=
    BitVec.eq_of_toInt_eq (hvalue.trans (BitVec.toInt_ofNat' _).symm)
  rw [hexNumber, if_neg (by simpa using hne), digitsValue_eq hds, if_pos (by omega)]

theorem digit_lt_of_decimal (hds : ∀ d ∈ ds, digit d < 10) : ∀ d ∈ ds, digit d < 16 := fun d hd =>
  (hds d hd).trans (by decide)

theorem decimalNumber_ok {value : Word} (hds : ∀ d ∈ ds, digit d < 10)
    (hzero : ds.head? = some '0' → ds = ['0']) (hle : numeral 10 ds ≤ 2 ^ 31)
    (hvalue : value.toInt = (numeral 10 ds : Int).bmod (2 ^ 32)) (p : Span) :
    decimalNumber p ds = .ok (.number value) := by
  obtain rfl : value = BitVec.ofNat 32 (numeral 10 ds) :=
    BitVec.eq_of_toInt_eq (hvalue.trans (BitVec.toInt_ofNat' _).symm)
  have hlead : ¬ (decide (1 < ds.length) && ds.head? == some '0') = true := by
    rw [Bool.and_eq_true, decide_eq_true_eq, beq_iff_eq]
    rintro ⟨hlen, hhead⟩
    rw [hzero hhead] at hlen
    exact absurd hlen (by decide)
  rw [decimalNumber, if_neg hlead, digitsValue_eq (digit_lt_of_decimal hds), if_pos (by omega)]

/-- An operator of the table stands before those that it begins with, so it does not
begin with one that stands after it. -/
theorem operators_pairwise : operators.Pairwise fun o o' => ¬ o.1 <+: o'.1 := by decide +kernel

/-- The first operator that fits a text is the longest. -/
theorem longest_of_find {o : List Char × Kind}
    (h : operators.find? (fun o => o.1.isPrefixOf text) = some o) :
    o ∈ operators ∧ o.1 <+: text ∧ ∀ o' ∈ operators, o'.1 <+: text → o' = o ∨ o'.1.length < o.1.length := by
  obtain ⟨hfits, before, after, hsplit, hnone⟩ := List.find?_eq_some_iff_append.mp h
  rw [List.isPrefixOf_iff_prefix] at hfits
  refine ⟨hsplit ▸ List.mem_append_right before List.mem_cons_self, hfits, fun o' ho' hfits' => ?_⟩
  have hpairwise := operators_pairwise
  rw [hsplit] at ho' hpairwise
  rcases List.mem_append.mp ho' with hbefore | ho'
  · have hnot := hnone o' hbefore
    rw [List.isPrefixOf_iff_prefix.mpr hfits'] at hnot
    cases hnot
  · rcases List.mem_cons.mp ho' with rfl | hafter
    · exact Or.inl rfl
    · refine Or.inr (not_le.mp fun hle => ?_)
      have hnot := (List.pairwise_cons.mp (List.pairwise_append.mp hpairwise).2.1).1 o' hafter
      exact hnot (List.prefix_of_prefix_length_le hfits hfits' hle)

/-- What operators begin with belongs to no word, number or gap, and is an operator
alone. -/
theorem operator_heads : ∀ o ∈ operators, o.1 ≠ [] ∧ (o.1.head?.all fun c => !isWordStart c && !c.isDigit &&
    !Source.isBlank c && operators.any fun o' => o'.1 == [c]) = true := by decide +kernel

theorem operator_head {s : List Char} (h : (s, k) ∈ operators) :
    ∃ c cs, s = c :: cs ∧ isWordStart c = false ∧ c.isDigit = false ∧ Source.isBlank c = false ∧
      ∃ k', ([c], k') ∈ operators := by
  obtain ⟨hne, hhead⟩ := operator_heads _ h
  obtain ⟨c, cs, rfl⟩ := List.exists_cons_of_ne_nil hne
  simp only [List.head?_cons, Option.all_some, Bool.and_eq_true, Bool.not_eq_true', List.any_eq_true,
    beq_iff_eq] at hhead
  obtain ⟨⟨⟨hstart, hdigit⟩, hblank⟩, ⟨s', k'⟩, hmem, rfl⟩ := hhead
  exact ⟨c, cs, rfl, hstart, hdigit, hblank, k', hmem⟩

theorem readLexeme_operator (hstart : isWordStart c = false) (hdigit : c.isDigit = false) (p : Span)
    (cs : List Char) : readLexeme p c cs =
      (operators.find? fun o => o.1.isPrefixOf (c :: cs)).elim (.error (.lexical p (.unexpectedCharacter c))) .ok := by
  unfold readLexeme
  dsimp only
  rw [if_neg (by rw [hstart]; decide), if_neg (by rw [hdigit]; decide)]
  cases operators.find? fun o => o.1.isPrefixOf (c :: cs) with
  | none => rfl
  | some o => rfl

theorem readLexeme_word (hstart : isWordStart c = true) (hcs : ∀ d ∈ cs, isWordChar d = true)
    (hrest : EndsWord rest) (p : Span) :
    readLexeme p c (cs ++ rest) = .ok (c :: cs, .ofWord (String.ofList (c :: cs))) := by
  have hall : ∀ d ∈ c :: cs, isWordChar d = true :=
    List.forall_mem_cons.mpr ⟨isWordChar_of_start hstart, hcs⟩
  unfold readLexeme
  dsimp only
  rw [if_pos hstart, ← List.cons_append, (span_append hall hrest).1]

/-- A lexeme is read as what it is. -/
theorem readLexeme_of_lexeme (h : Lexeme lexeme rest k) (heq : c :: cs = lexeme ++ rest) (p : Span) :
    readLexeme p c cs = .ok (lexeme, k) := by
  cases h with
  | @word d ds _ hstart hds hrest =>
    obtain ⟨rfl, rfl⟩ := List.cons.inj heq
    exact readLexeme_word hstart hds hrest p
  | @decimal ds _ value hne hds hzero hle hvalue hrest =>
    obtain ⟨d, ds, rfl⟩ := List.exists_cons_of_ne_nil hne
    obtain ⟨rfl, rfl⟩ := List.cons.inj heq
    change readLexeme p c (ds ++ rest) = _
    rw [readLexeme_decimal hds (hrest.not_digit (by decide)) fun _ => hrest.not_hexMark, endOfNumber_ok hrest,
      decimalNumber_ok hds hzero hle hvalue]
    rfl
  | @hex x ds _ value hx hne hds hle hvalue hrest =>
    obtain ⟨rfl, rfl⟩ := List.cons.inj heq
    change readLexeme p '0' (x :: (ds ++ rest)) = _
    rw [readLexeme_hex hx hds (hrest.not_digit le_rfl), endOfNumber_ok hrest, hexNumber_ok hne hds hle hvalue]
    rfl
  | operator hmem hlongest _ =>
    obtain ⟨d, ds, rfl, hstart, hdigit, -⟩ := operator_head hmem
    obtain ⟨rfl, rfl⟩ := List.cons.inj heq
    have hfits : ((c :: ds, k).1.isPrefixOf (c :: ds ++ rest)) = true :=
      List.isPrefixOf_iff_prefix.mpr (List.prefix_append _ _)
    obtain ⟨o, ho⟩ := Option.isSome_iff_exists.mp
      (List.find?_isSome (p := fun o => o.1.isPrefixOf (c :: ds ++ rest)).mpr ⟨_, hmem, hfits⟩)
    obtain ⟨homem, hofits, hothers⟩ := longest_of_find ho
    -- the longest operator that fits is not longer, so it is this one
    have hsame : (c :: ds, k) = o := by
      refine (hothers _ hmem (List.prefix_append _ _)).resolve_right fun hlt => ?_
      exact absurd (hlongest o homem hofits) (not_le.mpr hlt)
    rw [readLexeme_operator hstart hdigit]
    change (operators.find? fun o => o.1.isPrefixOf (c :: ds ++ rest)).elim _ _ = _
    rw [ho, hsame]
    rfl

/-- What begins with no lexeme is refused with its cause. -/
theorem readLexeme_of_malformed {cause : LexicalCause} (h : Malformed (c :: cs) cause) (p : Span) :
    readLexeme p c cs = .error (.lexical p cause) := by
  generalize htext : c :: cs = text at h
  cases h with
  | @hexTrailing x ds d rest hx hds hword hdigit =>
    obtain ⟨rfl, rfl⟩ := List.cons.inj htext
    rw [readLexeme_hex hx hds (by simpa using hdigit), endOfNumber_error hword]
    rfl
  | @hexEmpty x rest hx hrest =>
    obtain ⟨rfl, rfl⟩ := List.cons.inj htext
    rw [← List.nil_append rest, readLexeme_hex hx (by simp) (hrest.not_digit le_rfl), endOfNumber_ok hrest]
    rfl
  | @hexLarge x ds rest hx hne hds hrest hlarge =>
    obtain ⟨rfl, rfl⟩ := List.cons.inj htext
    have hvalue : hexNumber p ds = .error (.lexical p (.hexOutOfRange (String.ofList ds))) := by
      rw [hexNumber, if_neg (by simpa using hne), digitsValue_eq hds, if_neg (by omega)]
    rw [readLexeme_hex hx hds (hrest.not_digit le_rfl), endOfNumber_ok hrest, hvalue]
    rfl
  | @decimalTrailing ds d rest hne hds hword hdigit hmark =>
    obtain ⟨e, ds, rfl⟩ := List.exists_cons_of_ne_nil hne
    obtain ⟨rfl, rfl⟩ := List.cons.inj htext
    change readLexeme p c (ds ++ d :: rest) = _
    rw [readLexeme_decimal hds (by simpa using hdigit) (by simpa using hmark), endOfNumber_error hword]
    rfl
  | @leadingZero ds rest hne hds hrest =>
    obtain ⟨rfl, rfl⟩ := List.cons.inj htext
    have hall : ∀ d ∈ '0' :: ds, digit d < 10 := List.forall_mem_cons.mpr ⟨by decide +kernel, hds⟩
    have hlength : 0 < ds.length := List.length_pos_iff.mpr hne
    have hvalue : decimalNumber p ('0' :: ds) = .error (.lexical p (.leadingZero (String.ofList ('0' :: ds)))) := by
      rw [decimalNumber, if_pos (by simp [hlength])]
    rw [readLexeme_decimal hall (hrest.not_digit (by decide)) fun _ => hrest.not_hexMark, endOfNumber_ok hrest, hvalue]
    rfl
  | @decimalLarge ds rest hne hds hzero hrest hlarge =>
    obtain ⟨e, ds, rfl⟩ := List.exists_cons_of_ne_nil hne
    obtain ⟨rfl, rfl⟩ := List.cons.inj htext
    have hvalue : decimalNumber p (c :: ds) = .error (.lexical p (.decimalOutOfRange (String.ofList (c :: ds)))) := by
      rw [decimalNumber, if_neg (by simpa using fun _ => by simpa using hzero),
        digitsValue_eq (digit_lt_of_decimal hds), if_neg (by omega)]
    change readLexeme p c (ds ++ rest) = _
    rw [readLexeme_decimal hds (hrest.not_digit (by decide)) fun _ => hrest.not_hexMark, endOfNumber_ok hrest, hvalue]
    rfl
  | @character d rest _ hstart hdigit hnone =>
    obtain ⟨rfl, rfl⟩ := List.cons.inj htext
    have hfind : operators.find? (fun o => o.1.isPrefixOf (c :: cs)) = none := by
      refine List.find?_eq_none.mpr fun o ho hfits => ?_
      obtain ⟨d, ds, hd, -⟩ := operator_head ho
      rw [List.isPrefixOf_iff_prefix, hd] at hfits
      exact hnone o ho (by rw [hd, (List.cons_prefix_cons.mp hfits).1]; rfl)
    rw [readLexeme_operator hstart (Bool.eq_false_iff.mpr (mt isDigit_iff.mp hdigit)), hfind]
    rfl

/-! ### Every text begins with a gap, a lexeme or something malformed -/

theorem leavesGap_of_isWordChar (h : isWordChar c = true) (cs : List Char) : LeavesGap (c :: cs) := by
  obtain ⟨hblank, hslash⟩ := not_gap_of_isWordChar h
  refine ⟨?_, c, cs, rfl, hblank⟩
  rintro (hpre | hpre) <;> exact hslash (List.cons_prefix_cons.mp hpre).1.symm

theorem leavesGap_of_digits (hbase : base ≤ 16) (hne : ds ≠ []) (hds : ∀ d ∈ ds, digit d < base)
    (rest : List Char) : LeavesGap (ds ++ rest) := by
  obtain ⟨d, ds, rfl⟩ := List.exists_cons_of_ne_nil hne
  exact leavesGap_of_isWordChar (isWordChar_of_digit ((hds d List.mem_cons_self).trans_le hbase)) _

theorem Lexeme.leavesGap (h : Lexeme lexeme rest k) : LeavesGap (lexeme ++ rest) := by
  cases h with
  | word hstart => exact leavesGap_of_isWordChar (isWordChar_of_start hstart) _
  | decimal hne hds => exact leavesGap_of_digits (by decide) hne hds rest
  | hex => exact leavesGap_of_isWordChar (by decide) _
  | operator hmem _ hcomment =>
    obtain ⟨c, cs, rfl, -, -, hblank, -⟩ := operator_head hmem
    exact ⟨hcomment, c, cs ++ rest, rfl, hblank⟩

theorem Lexeme.ne_nil (h : Lexeme lexeme rest k) : lexeme ≠ [] := by
  cases h with
  | word => exact List.cons_ne_nil _ _
  | decimal hne => exact hne
  | hex => exact List.cons_ne_nil _ _
  | operator hmem => exact (operator_heads _ hmem).1

theorem Malformed.leavesGap {cause : LexicalCause} (h : Malformed text cause) : LeavesGap text := by
  cases h with
  | hexTrailing | hexEmpty | hexLarge | leadingZero => exact leavesGap_of_isWordChar (by decide) _
  | decimalTrailing hne hds => exact leavesGap_of_digits (by decide) hne hds _
  | decimalLarge hne hds => exact leavesGap_of_digits (by decide) hne hds _
  | @character c rest hblank hstart hdigit hnone =>
    have hslash : c ≠ '/' := by
      rintro rfl
      exact hnone (['/'], .slash) (by decide) rfl
    refine ⟨?_, c, rest, rfl, hblank⟩
    rintro (hpre | hpre) <;> exact hslash (List.cons_prefix_cons.mp hpre).1.symm

/-- A text that begins with a lexeme or with something malformed. -/
def Judged (text : List Char) : Prop :=
  (∃ lexeme rest k, text = lexeme ++ rest ∧ Lexeme lexeme rest k) ∨ ∃ cause, Malformed text cause

theorem endsWord_or (rest : List Char) : EndsWord rest ∨ ∃ c behind, rest = c :: behind ∧ isWordChar c = true := by
  cases rest with
  | nil => exact Or.inl fun c hc => by cases hc
  | cons c behind =>
    cases hc : isWordChar c with
    | false => exact Or.inl (by simpa [EndsWord] using hc)
    | true => exact Or.inr ⟨c, behind, rfl, hc⟩

theorem judged_hex (hx : x ∈ hexMarks) (cs : List Char) : Judged ('0' :: x :: cs) := by
  obtain ⟨ds, rest, rfl, hds, hrest⟩ := exists_span isHexDigit cs
  replace hds : ∀ d ∈ ds, digit d < 16 := fun d hd => isHexDigit_iff.mp (hds d hd)
  rcases endsWord_or rest with hends | ⟨c, rest, rfl, hword⟩
  · by_cases hne : ds = []
    · subst hne
      exact Or.inr ⟨_, .hexEmpty hx hends⟩
    · by_cases hle : numeral 16 ds ≤ 2 ^ 32 - 1
      · exact Or.inl ⟨_, rest, _, rfl, .hex hx hne hds hle (BitVec.toInt_ofNat' _) hends⟩
      · exact Or.inr ⟨_, .hexLarge hx hne hds hends (not_le.mp hle)⟩
  · have hdigit : ¬ digit c < 16 := mt isHexDigit_iff.mpr (Bool.eq_false_iff.mp (hrest c rfl))
    exact Or.inr ⟨_, .hexTrailing hx hds hword hdigit⟩

theorem judged_decimal (hc : digit c < 10) (cs : List Char)
    (hmark : ¬ ∃ x rest, c :: cs = '0' :: x :: rest ∧ x ∈ hexMarks) : Judged (c :: cs) := by
  obtain ⟨ds, rest, hsplit, hds, hrest⟩ := exists_span Char.isDigit (c :: cs)
  have hne : ds ≠ [] := by
    rintro rfl
    rw [List.nil_append] at hsplit
    have := hrest c (hsplit ▸ rfl)
    rw [isDigit_iff.mpr hc] at this
    cases this
  replace hds : ∀ d ∈ ds, digit d < 10 := fun d hd => isDigit_iff.mp (hds d hd)
  rw [hsplit] at hmark ⊢
  rcases endsWord_or rest with hends | ⟨e, rest, rfl, hword⟩
  · by_cases hzero : ds.head? = some '0' → ds = ['0']
    · by_cases hle : numeral 10 ds ≤ 2 ^ 31
      · exact Or.inl ⟨ds, rest, _, rfl, .decimal hne hds hzero hle (BitVec.toInt_ofNat' _) hends⟩
      · refine Or.inr ⟨_, .decimalLarge hne hds (fun hhead => hle ?_) hends (not_le.mp hle)⟩
        rw [hzero hhead]
        decide +kernel
    · push Not at hzero
      obtain ⟨ds, rfl⟩ := List.head?_eq_some_iff.mp hzero.1
      refine Or.inr ⟨_, .leadingZero (fun hnil => hzero.2 (by rw [hnil])) (fun d hd => ?_) hends⟩
      exact hds d (List.mem_cons_of_mem _ hd)
  · have hdigit : ¬ digit e < 10 := mt isDigit_iff.mpr (Bool.eq_false_iff.mp (hrest e rfl))
    refine Or.inr ⟨_, .decimalTrailing hne hds hword hdigit fun hds' hx => hmark ⟨e, rest, ?_, hx⟩⟩
    rw [hds']
    rfl

theorem judged_operator (hstart : isWordStart c = false) (hdigit : ¬ digit c < 10)
    (hblank : Source.isBlank c = false) (hcomment : ¬ OpensComment (c :: cs)) : Judged (c :: cs) := by
  cases hfind : operators.find? fun o => o.1.isPrefixOf (c :: cs) with
  | some o =>
    obtain ⟨hmem, ⟨rest, hrest⟩, hothers⟩ := longest_of_find hfind
    refine Or.inl ⟨o.1, rest, o.2, hrest.symm, .operator hmem (fun o' ho' hfits => ?_) (hrest ▸ hcomment)⟩
    rcases hothers o' ho' (hrest ▸ hfits) with rfl | hlt
    · exact le_rfl
    · exact hlt.le
  | none =>
    refine Or.inr ⟨_, .character hblank hstart hdigit fun o ho hhead => ?_⟩
    -- the first character alone would be an operator that fits
    obtain ⟨d, ds, hd, -, -, -, k, hmem⟩ := operator_head ho
    obtain rfl : d = c := by simpa [hd] using hhead
    exact List.find?_eq_none.mp hfind _ hmem (by simp)

/-- Behind a gap a text goes on with a lexeme or with something malformed. -/
theorem LeavesGap.judged (h : LeavesGap text) : Judged text := by
  obtain ⟨hcomment, c, cs, rfl, hblank⟩ := h
  by_cases hstart : isWordStart c = true
  · obtain ⟨word, rest, rfl, hword, hrest⟩ := exists_span isWordChar cs
    exact Or.inl ⟨c :: word, rest, _, rfl, .word hstart hword hrest⟩
  · by_cases hdigit : digit c < 10
    · by_cases hmark : ∃ x rest, c :: cs = '0' :: x :: rest ∧ x ∈ hexMarks
      · obtain ⟨x, rest, heq, hx⟩ := hmark
        rw [heq]
        exact judged_hex hx rest
      · exact judged_decimal hdigit cs hmark
    · exact judged_operator (by simpa using hstart) hdigit hblank hcomment

end Chordal.Token
