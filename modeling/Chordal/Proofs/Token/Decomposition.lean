/-
# Tokenizing loses nothing

A text has tokens if and only if it is gaps and lexemes in turn, and the tokens are
those of its lexemes, each at the place where its lexeme begins, with the end mark
behind them. It has none if and only if, behind a part that is gaps and lexemes in
turn, it goes on with a comment that is never closed or with something malformed,
and the diagnostic names that place and that cause.

Reading makes one round for each lexeme. What a round does is said once
(`tokensFrom_lexeme`); the rest is induction along the text.

Key definitions: `Decomposes`, `Stuck`.
Key theorems: `tokensFrom_lexeme`, `decomposes_or_stuck`, `tokenize_exact`,
`tokenize_places_fit`.
-/
import Mathlib
import Chordal.Proofs.Token.Text

namespace Chordal.Token

/-- The text behind `before` is gaps and lexemes in turn, with these tokens. -/
inductive Decomposes : (before text : List Char) → List Token → Prop
  | last {before g} : LastGapText g → Decomposes before g [⟨.eof, placeAfter (before ++ g)⟩]
  | next {before g lexeme rest k tokens} : GapText g → Lexeme lexeme rest k →
      Decomposes (before ++ g ++ lexeme) rest tokens →
      Decomposes before (g ++ (lexeme ++ rest)) (⟨k, placeAfter (before ++ g)⟩ :: tokens)

/-- The text behind `before` is gaps and lexemes in turn up to a comment that is never
closed or something malformed. -/
inductive Stuck : (before text : List Char) → Diagnostic → Prop
  | comment {before g body} : GapText g → ¬ ['*', '/'] <:+: body →
      Stuck before (g ++ '/' :: '*' :: body) (.lexical (placeAfter (before ++ g)) .unterminatedComment)
  | malformed {before g rest cause} : GapText g → Malformed rest cause →
      Stuck before (g ++ rest) (.lexical (placeAfter (before ++ g)) cause)
  | next {before g lexeme rest k d} : GapText g → Lexeme lexeme rest k →
      Stuck (before ++ g ++ lexeme) rest d → Stuck before (g ++ (lexeme ++ rest)) d

/-! ### One round -/

variable {rest lexeme before text : List Char} {k : Kind} {tokens : List Token} {source : String}

theorem skipGap_placeAfter {g : List Char} (hg : GapText g) (hrest : LeavesGap rest)
    (before : List Char) :
    skipGap .between (placeAfter before) (g ++ rest) = .ok (placeAfter (before ++ g), rest) := by
  rw [skipGap_append hg, skipGap_leaves hrest, placeAfter_append]

/-- A round reads a gap and the lexeme behind it. -/
theorem tokensFrom_lexeme {g : List Char} (hg : GapText g) (hlexeme : Lexeme lexeme rest k)
    (before : List Char) (rounds : Nat) :
    tokensFrom (rounds + 1) (placeAfter before) (g ++ (lexeme ++ rest)) =
      (do let others ← tokensFrom rounds (placeAfter (before ++ g ++ lexeme)) rest
          return ⟨k, placeAfter (before ++ g)⟩ :: others) := by
  obtain ⟨c, cs, htext⟩ := List.exists_cons_of_ne_nil (List.append_ne_nil_of_left_ne_nil hlexeme.ne_nil rest)
  have hread := readLexeme_of_lexeme hlexeme htext.symm (placeAfter (before ++ g))
  have hdrop : (c :: cs).drop lexeme.length = rest := by rw [← htext, List.drop_left]
  rw [tokensFrom, skipGap_placeAfter hg hlexeme.leavesGap, htext]
  change (readLexeme (placeAfter (before ++ g)) c cs >>= fun r => _) = _
  rw [hread]
  change (tokensFrom rounds ((placeAfter (before ++ g)).advance lexeme) ((c :: cs).drop lexeme.length) >>= _) = _
  rw [hdrop, ← placeAfter_append]

/-- What stands behind a lexeme is shorter than the text it stands in. -/
theorem Lexeme.length_rest_lt (h : Lexeme lexeme rest k) (g : List Char) :
    rest.length < (g ++ (lexeme ++ rest)).length := by
  have hpos := List.length_pos_iff.mpr h.ne_nil
  rw [List.length_append, List.length_append]
  omega

/-! ### All rounds -/

theorem Decomposes.tokensFrom (h : Decomposes before text tokens) :
    ∀ {rounds : Nat}, text.length < rounds → tokensFrom rounds (placeAfter before) text = .ok tokens := by
  induction h with
  | @last before g hg =>
    intro rounds hlt
    obtain ⟨rounds, rfl⟩ := Nat.exists_eq_add_of_lt hlt
    rw [Token.tokensFrom, skipGap_last hg, ← placeAfter_append]
    rfl
  | @next before g lexeme rest k tokens hg hlexeme _ ih =>
    intro rounds hlt
    have hrest := hlexeme.length_rest_lt g
    obtain _ | rounds := rounds
    · omega
    rw [tokensFrom_lexeme hg hlexeme, ih (by omega)]
    rfl

theorem Stuck.tokensFrom {d : Diagnostic} (h : Stuck before text d) :
    ∀ {rounds : Nat}, text.length < rounds → tokensFrom rounds (placeAfter before) text = .error d := by
  induction h with
  | @comment before g body hg hbody =>
    intro rounds hlt
    obtain ⟨rounds, rfl⟩ := Nat.exists_eq_add_of_lt hlt
    rw [Token.tokensFrom, skipGap_append hg, ← placeAfter_append, skipGap, skipGap_block_end _ body _ hbody]
    rfl
  | @malformed before g rest cause hg hrest =>
    intro rounds hlt
    obtain ⟨rounds, rfl⟩ := Nat.exists_eq_add_of_lt hlt
    obtain ⟨-, c, cs, rfl, -⟩ := hrest.leavesGap
    rw [Token.tokensFrom, skipGap_placeAfter hg hrest.leavesGap]
    change (readLexeme (placeAfter (before ++ g)) c cs >>= fun r => _) = _
    rw [readLexeme_of_malformed hrest]
    rfl
  | @next before g lexeme rest k d hg hlexeme _ ih =>
    intro rounds hlt
    have hrest := hlexeme.length_rest_lt g
    obtain _ | rounds := rounds
    · omega
    rw [tokensFrom_lexeme hg hlexeme, ih (by omega)]
    rfl

/-- Every text is of one of the two forms. -/
theorem decomposes_or_stuck (before text : List Char) :
    (∃ tokens, Decomposes before text tokens) ∨ ∃ d, Stuck before text d := by
  induction hn : text.length using Nat.strong_induction_on generalizing before text with
  | _ n ih =>
    subst hn
    cases gapSplit text with
    | last hg => exact Or.inl ⟨_, .last hg⟩
    | unterminated hg hbody => exact Or.inr ⟨_, .comment hg hbody⟩
    | @leaves g _ hg hrest =>
      rcases hrest.judged with ⟨lexeme, rest, k, rfl, hlexeme⟩ | ⟨cause, hcause⟩
      · rcases ih _ (hlexeme.length_rest_lt g) (before ++ g ++ lexeme) rest rfl with ⟨tokens, h⟩ | ⟨d, h⟩
        · exact Or.inl ⟨_, .next hg hlexeme h⟩
        · exact Or.inr ⟨_, .next hg hlexeme h⟩
      · exact Or.inr ⟨_, .malformed hg hcause⟩

/-! ### The end mark -/

theorem keyword?_ne_eof (word : String) : keyword? word ≠ some .eof := by
  unfold keyword?
  split <;> simp

theorem Lexeme.kind_ne_eof (h : Lexeme lexeme rest k) : k ≠ .eof := by
  cases h with
  | @word c cs _ =>
    intro heof
    unfold Kind.ofWord at heof
    cases hword : keyword? (String.ofList (c :: cs)) with
    | none =>
      rw [hword] at heof
      cases heof
    | some k =>
      rw [hword] at heof
      exact keyword?_ne_eof _ (hword.trans (congrArg some heof))
  | decimal => exact Kind.noConfusion
  | hex => exact Kind.noConfusion
  | operator hmem =>
    have hall : ∀ o ∈ operators, o.2 ≠ .eof := by decide
    exact hall _ hmem

/-- The last token is the end mark, and no other token is. -/
theorem Decomposes.end_mark (h : Decomposes before text tokens) :
    ∃ front stop, tokens = front ++ [stop] ∧ stop.kind = .eof ∧ ∀ t ∈ front, t.kind ≠ .eof := by
  induction h with
  | last => exact ⟨[], _, rfl, rfl, by simp⟩
  | next _ hlexeme _ ih =>
    obtain ⟨front, stop, rfl, hstop, hfront⟩ := ih
    exact ⟨_ :: front, stop, rfl, hstop, List.forall_mem_cons.mpr ⟨hlexeme.kind_ne_eof, hfront⟩⟩

theorem tokenize_of_decomposes (h : Decomposes [] source.toList tokens) :
    tokenize source = .ok tokens := h.tokensFrom (Nat.lt_succ_self _)

theorem tokenize_of_stuck {d : Diagnostic} (h : Stuck [] source.toList d) :
    tokenize source = .error d := h.tokensFrom (Nat.lt_succ_self _)

theorem Decomposes.places_le (h : Decomposes before text tokens) :
    ∀ t ∈ tokens, t.span.line ≤ (before ++ text).length + 1 ∧ t.span.column ≤ (before ++ text).length + 1 := by
  induction h with
  | @last before g _ =>
    intro t ht
    obtain rfl := List.mem_singleton.mp ht
    exact placeAfter_le _
  | @next before g lexeme rest k tokens _ _ _ ih =>
    intro t ht
    rcases List.mem_cons.mp ht with rfl | ht
    · obtain ⟨hline, hcolumn⟩ := placeAfter_le (before ++ g)
      simp only [List.length_append] at hline hcolumn ⊢
      omega
    · simpa only [List.append_assoc] using ih t ht

/-- Lines and columns of a text that is short enough fit into 32 bits. -/
theorem tokenize_places_fit (h : tokenize source = .ok tokens) (hshort : source.length + 1 < 2 ^ 32) :
    ∀ t ∈ tokens, t.span.line < 2 ^ 32 ∧ t.span.column < 2 ^ 32 := by
  intro t ht
  rcases decomposes_or_stuck [] source.toList with ⟨tokens', h'⟩ | ⟨d, h'⟩
  · obtain rfl := Except.ok.inj ((tokenize_of_decomposes h').symm.trans h)
    obtain ⟨hline, hcolumn⟩ := h'.places_le t ht
    rw [List.nil_append, String.length_toList] at hline hcolumn
    exact ⟨hline.trans_lt hshort, hcolumn.trans_lt hshort⟩
  · cases (tokenize_of_stuck h').symm.trans h

/-- **Tokenizing loses nothing.** A text has the tokens of its decomposition into gaps
and lexemes, of which the last and no other is the end mark; and it is refused exactly
where no such decomposition goes on. -/
theorem tokenize_exact (source : String) :
    (∀ tokens, tokenize source = .ok tokens ↔ Decomposes [] source.toList tokens) ∧
    (∀ tokens, Decomposes [] source.toList tokens →
      ∃ front stop, tokens = front ++ [stop] ∧ stop.kind = .eof ∧ ∀ t ∈ front, t.kind ≠ .eof) ∧
    ∀ d, tokenize source = .error d ↔ Stuck [] source.toList d := by
  refine ⟨fun tokens => ⟨fun h => ?_, tokenize_of_decomposes⟩, fun tokens h => h.end_mark,
    fun d => ⟨fun h => ?_, tokenize_of_stuck⟩⟩
  · rcases decomposes_or_stuck [] source.toList with ⟨tokens', h'⟩ | ⟨d, h'⟩
    · obtain rfl := Except.ok.inj ((tokenize_of_decomposes h').symm.trans h)
      exact h'
    · cases (tokenize_of_stuck h').symm.trans h
  · rcases decomposes_or_stuck [] source.toList with ⟨tokens, h'⟩ | ⟨d', h'⟩
    · cases (tokenize_of_decomposes h').symm.trans h
    · obtain rfl := Except.error.inj ((tokenize_of_stuck h').symm.trans h)
      exact h'

end Chordal.Token
