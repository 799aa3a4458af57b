/-
# Functions of accepted sources

What the checker delivers for a source text is typed strictly: the grammar has no
compound assignment that compares, so assignments keep the type of their variable.
The reader needs the end mark behind its tokens for that, and the tokens of a text
end in one: each round of reading takes at least one character, so there are rounds
enough for the whole text.

Key theorems: `Token.tokenize_last`, `Syntax.parse_arithmetic`, `checkSource_wellFormed`.
-/
import Mathlib
import Chordal.Compiler
import Chordal.Proofs.Compilation
import Chordal.Proofs.Syntax.Reading
import Chordal.Proofs.Typed.Typing

namespace Chordal

/-! ### The end mark -/

namespace Token

/-- Behind a gap comes the rest of the text. -/
theorem skipGap_suffix {gap : Gap} {p q : Span} {cs rest : List Char} (h : skipGap gap p cs = .ok (q, rest)) :
    rest <:+ cs := by
  fun_induction skipGap gap p cs with
  | case1 p cs ih => exact (ih h).trans (List.suffix_append ['/', '/'] cs)
  | case2 p cs ih => exact (ih h).trans (List.suffix_append ['/', '*'] cs)
  | case3 p c cs _ _ _ ih => exact (ih h).trans (List.suffix_cons c cs)
  | case4 p c cs =>
    obtain ⟨-, rfl⟩ := ok_pair_inj h
    exact List.suffix_rfl
  | case5 p cs ih => exact (ih h).trans (List.suffix_cons _ cs)
  | case6 p c cs _ ih => exact (ih h).trans (List.suffix_cons c cs)
  | case7 opened p cs ih => exact (ih h).trans (List.suffix_append ['*', '/'] cs)
  | case8 opened p c cs _ ih => exact (ih h).trans (List.suffix_cons c cs)
  | case9 p | case10 p =>
    obtain ⟨-, rfl⟩ := ok_pair_inj h
    exact List.suffix_rfl
  | case11 => cases h

/-- A lexeme has a character. -/
theorem readLexeme_ne_nil {p : Span} {c : Char} {cs lexeme : List Char} {kind : Kind}
    (h : readLexeme p c cs = .ok (lexeme, kind)) : lexeme ≠ [] := by
  unfold readLexeme at h
  dsimp only at h
  split_ifs at h with hword hdigit hhex
  · obtain ⟨rfl, -⟩ := ok_pair_inj h
    have hc : isWordChar c = true := by
      rw [isWordStart, Bool.or_eq_true] at hword
      rw [isWordChar, Char.isAlphanum, Bool.or_eq_true, Bool.or_eq_true]
      exact hword.imp_left Or.inl
    rw [List.takeWhile_cons_of_pos hc]
    exact List.cons_ne_nil _ _
  · obtain ⟨_, -, h⟩ := bind_eq_ok.mp h
    obtain ⟨_, -, rfl, -⟩ := bind_pure_pair h
    simp
  · obtain ⟨_, -, h⟩ := bind_eq_ok.mp h
    obtain ⟨_, -, rfl, -⟩ := bind_pure_pair h
    rw [List.takeWhile_cons_of_pos hdigit]
    exact List.cons_ne_nil _ _
  · have hall : ∀ o ∈ operators, o.1 ≠ [] := by decide
    split at h
    · rename_i o ho
      obtain rfl := Except.ok.inj h
      exact hall _ (List.mem_of_find?_eq_some ho)
    · cases h

theorem tokensFrom_last : ∀ (rounds : Nat) {p : Span} {cs : List Char} {tokens : List Token}, cs.length < rounds →
    tokensFrom rounds p cs = .ok tokens → ∃ front q, tokens = front ++ [⟨.eof, q⟩]
  | 0, _, _, _, hlen, _ => absurd hlen (Nat.not_lt_zero _)
  | rounds + 1, p, cs, tokens, hlen, h => by
    rw [tokensFrom] at h
    obtain ⟨⟨q, rest⟩, hgap, h⟩ := bind_eq_ok.mp h
    have hrest := (skipGap_suffix hgap).length_le
    cases rest with
    | nil =>
      obtain rfl := Except.ok.inj h
      exact ⟨[], q, rfl⟩
    | cons c rest =>
      obtain ⟨⟨lexeme, kind⟩, hlexeme, h⟩ := bind_eq_ok.mp h
      obtain ⟨others, hothers, rfl⟩ := bind_pure_inj h
      have hpos := List.length_pos_iff.mpr (readLexeme_ne_nil hlexeme)
      have hdrop : ((c :: rest).drop lexeme.length).length < rounds := by
        rw [List.length_cons] at hrest
        rw [List.length_drop, List.length_cons]
        omega
      obtain ⟨front, q', rfl⟩ := tokensFrom_last rounds hdrop hothers
      exact ⟨⟨kind, q⟩ :: front, q', rfl⟩

/-- The tokens of a text end in the end mark. -/
theorem tokenize_last {source : String} {tokens : List Token} (h : tokenize source = .ok tokens) :
    ∃ front q, tokens = front ++ [⟨.eof, q⟩] := tokensFrom_last _ (Nat.lt_succ_self _) h

end Token

/-! ### Compound assignments of the grammar -/

namespace Syntax

theorem SpellsSimple.arithmetic {ks : List Token.Kind} {s : Simple} (h : SpellsSimple ks s) : s.Arithmetic := by
  cases h with
  | declare | init | count | expr => trivial
  | @assign p name k op _ _ hk _ =>
    have hall : ∀ t ∈ assignTokens, ∀ op ∈ t.2, op.isComparison = false := by decide
    cases op with
    | none => trivial
    | some op => exact hall _ hk op rfl

theorem SpellsOptional.arithmetic {ks : List Token.Kind} {s : Option Simple} (h : SpellsOptional ks s) :
    ∀ x ∈ s, x.Arithmetic := by
  cases h with
  | none => simp
  | some hs =>
    rintro x ⟨⟩
    exact hs.arithmetic

mutual

theorem Stmt.arithmetic_of_spells : ∀ (s : Stmt) {ks : List Token.Kind}, SpellsStmt ks s → s.Arithmetic
  | .simple _, _, .simple hs => hs.arithmetic
  | .block _ body, _, .block hbody => allArithmetic_of_spells body hbody
  | .ifElse _ _ t none, _, .ifThen _ ht => t.arithmetic_of_spells ht
  | .ifElse _ _ t (some e), _, .ifElse _ ht _ he => ⟨t.arithmetic_of_spells ht, e.arithmetic_of_spells he⟩
  | .while_ _ _ body, _, .while_ _ hbody => body.arithmetic_of_spells hbody
  | .for_ _ _ _ _ body, _, .for_ hinit _ hstep _ hbody =>
    ⟨hinit.arithmetic, body.arithmetic_of_spells hbody, hstep.arithmetic⟩
  | .break_ _, _, _ => trivial
  | .continue_ _, _, _ => trivial
  | .return_ _ _, _, _ => trivial

theorem allArithmetic_of_spells : ∀ (body : List Stmt) {ks : List Token.Kind}, SpellsStmts ks body → AllArithmetic body
  | [], _, _ => trivial
  | s :: rest, _, .cons hs hrest => ⟨s.arithmetic_of_spells hs, allArithmetic_of_spells rest hrest⟩

end

theorem SpellsFuncs.arithmetic {ks : List Token.Kind} {fs : List Func} (h : SpellsFuncs ks fs) :
    ∀ f ∈ fs, AllArithmetic f.body := by
  induction h with
  | nil => simp
  | cons hf _ ih =>
    intro f hmem
    rcases List.mem_cons.mp hmem with rfl | hmem
    · cases hf with
      | mk hbody => exact allArithmetic_of_spells _ hbody
    · exact ih f hmem

/-- No compound assignment that is read compares. -/
theorem parse_arithmetic {source : String} {tokens : List Token} {program : Program}
    (htokens : Token.tokenize source = .ok tokens) (h : parse tokens = .ok program) :
    ∀ f ∈ program.functions, AllArithmetic f.body := by
  obtain ⟨front, q, rfl⟩ := Token.tokenize_last htokens
  obtain ⟨⟨fs, c⟩, hfs, rfl⟩ := bind_pure_inj h
  have hlast : (Cursor.ofTokens (front ++ [⟨.eof, q⟩])).last.kind = .eof := by simp [Cursor.ofTokens]
  obtain ⟨⟨ks, -, hks⟩, -⟩ := funcs_spells _ hlast hfs
  exact hks.arithmetic

end Syntax

/-- The functions of an accepted source are in order, assignments included. -/
theorem checkSource_wellFormed {source : String} {p : Typed.Program} (h : checkSource source = .ok p) :
    ∀ t ∈ p.functions, t.WellFormed ∧ t.KeepsTypes := by
  obtain ⟨tokens, htokens, h⟩ := bind_eq_ok.mp h
  obtain ⟨program, hprogram, h⟩ := bind_eq_ok.mp h
  obtain ⟨-, -, hall⟩ := check_inv h
  intro t ht
  obtain ⟨f, hf, hcheck⟩ := forall₂_mem_right hall t ht
  have harith := Syntax.parse_arithmetic htokens hprogram f hf
  exact ⟨Typed.checkFunc_wellFormed hcheck, Typed.checkFunc_keepsTypes harith hcheck⟩

end Chordal
