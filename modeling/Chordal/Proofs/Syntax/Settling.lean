/-
# Reading comes to an end

The reader takes a bound on the depth of its calls. Reading comes to an end if some
depth is enough: from there on every depth gives one and the same answer, and this
answer is not the one that reports the bound (`Settles`). Settled readings compose,
so each function of the reader is followed once, and no call is ever unfolded twice.

A token read opens at most four levels of calls, so the depth that is enough grows by
four with each token. Behind the last token the reader sees that token again and
again. What it does there depends on the kind of this token alone. A token that opens
no level inside itself is an operand or no operand: an operand is read once, and since
it is neither an operator nor a semicolon nothing goes on behind it; at any other
token an expression fails. A statement and a function always fail there.

The five kinds that do open a level inside themselves are a real exception: behind
each of them reading reports the bound at every depth (`funcs_endless`).

Key definitions: `Settles`, `selfNesting`, `Cursor.Within`.
Key theorems: `settled_exprs`, `settled_stmts`, `funcs_settles`, `parse_settles`,
`funcs_endless`.
-/
import Mathlib
import Chordal.Token.Lexer
import Chordal.Syntax.Parser
import Chordal.Proofs.Syntax.Reading
import Chordal.Proofs.Syntax.GrammarExact
import Chordal.Proofs.Token.Decomposition

namespace Chordal.Syntax

open Token (Kind)

/-! ### Readings that settle -/

/-- A result that fulfils `P`, or an error of the reader other than the one that
reports the bound on the depth. -/
inductive Answers {α : Type} (P : α → Prop) : Except Diagnostic α → Prop
  | ok {a : α} : P a → Answers P (.ok a)
  | error {p : Span} {cause : ParseCause} : cause ≠ .endlessNesting → Answers P (.error (.parse p cause))

/-- From the depth `k` on the reading always gives the same answer, and its result
fulfils `P`. -/
def Settles {α : Type} (read : Nat → Except Diagnostic α) (k : Nat) (P : α → Prop) : Prop :=
  ∃ answer, Answers P answer ∧ ∀ d, k ≤ d → read d = answer

namespace Settles

variable {α β : Type} {P Q : α → Prop} {R : β → Prop} {k m : Nat} {c : Cursor} {read : Nat → Except Diagnostic α}

theorem ok {a : α} (h : P a) : Settles (fun _ => .ok a) k P := ⟨_, .ok h, fun _ _ => rfl⟩

theorem error {p : Span} {cause : ParseCause} (h : cause ≠ .endlessNesting) :
    Settles (fun _ => .error (.parse p cause)) k P := ⟨_, .error h, fun _ _ => rfl⟩

theorem mono (h : Settles read k P) (hk : k ≤ m) (hP : ∀ a, P a → Q a) : Settles read m Q := by
  obtain ⟨answer, hanswer, hread⟩ := h
  refine ⟨answer, ?_, fun d hd => hread d (hk.trans hd)⟩
  cases hanswer with
  | ok ha => exact .ok (hP _ ha)
  | error hcause => exact .error hcause

/-- A call needs one level more than what is called. -/
theorem call (h : Settles (fun d => read (d + 1)) k P) (hk : k < m) : Settles read m P := by
  obtain ⟨answer, hanswer, hread⟩ := h
  refine ⟨answer, hanswer, fun d hd => ?_⟩
  obtain _ | d := d
  · omega
  exact hread d (by omega)

/-- If a reading settles, and what follows settles whatever it results in, both
together settle. -/
theorem bind {next : Nat → α → Except Diagnostic β} (h : Settles read k P)
    (hnext : ∀ a, P a → Settles (fun d => next d a) k R) : Settles (fun d => read d >>= next d) k R := by
  obtain ⟨answer, hanswer, hread⟩ := h
  cases hanswer with
  | @ok a ha =>
    obtain ⟨answer, hanswer, hafter⟩ := hnext a ha
    refine ⟨answer, hanswer, fun d hd => ?_⟩
    dsimp only
    rw [hread d hd]
    exact hafter d hd
  | @error p cause hcause =>
    refine ⟨.error (.parse p cause), .error hcause, fun d hd => ?_⟩
    dsimp only
    rw [hread d hd]
    rfl

theorem ite {p : Prop} [Decidable p] {other : Nat → Except Diagnostic α} (h : p → Settles read k P)
    (h' : ¬p → Settles other k P) : Settles (fun d => if p then read d else other d) k P := by
  by_cases hp : p
  · simpa only [if_pos hp] using h hp
  · simpa only [if_neg hp] using h' hp

/-- A token that has to come next, and what follows it. -/
theorem expect {kind : Kind} {next : Nat → Cursor → Except Diagnostic α}
    (h : c.peek = kind → Settles (fun d => next d c.advance) k P) :
    Settles (fun d => c.expect kind >>= next d) k P := by
  by_cases hpeek : c.peek = kind
  · simp only [Cursor.expect, if_pos hpeek]
    exact h hpeek
  · simp only [Cursor.expect, if_neg hpeek]
    exact error ParseCause.noConfusion

/-- A name that has to come next, and what follows it. -/
theorem expectName {next : Nat → String × Cursor → Except Diagnostic α}
    (h : ∀ name, c.peek = .ident name → Settles (fun d => next d (name, c.advance)) k P) :
    Settles (fun d => c.expectName >>= next d) k P := by
  unfold Cursor.expectName
  split
  · next name hpeek => exact h name hpeek
  · exact error ParseCause.noConfusion

/-- What a simple statement settles to, by the token it begins with. -/
theorem simple {P : Simple × Cursor → Prop}
    (hdeclare : ∀ ty, type? c.peek = some ty → Settles (fun d => c.advance.declaration d c.span ty) k P)
    (hassign : ∀ name op, c.peek = .ident name → assignment? c.peekSecond = some op →
      Settles (fun d => do
        let (value, next) ← c.advance.advance.expr d
        return (.assign c.span name op value, next)) k P)
    (hcount : ∀ name direction, c.peek = .ident name → count? c.peekSecond = some direction →
      P (.count c.span name direction, c.advance.advance))
    (hexpr : Settles (fun d => c.exprStmt d) k P) : Settles (fun d => c.simple d) k P := by
  unfold Cursor.simple
  split
  · next ty hty => exact hdeclare ty hty
  · split
    · next name hname =>
      split
      · next op hop => exact hassign name op hname hop
      · split
        · next direction hdirection => exact .ok (hcount name direction hname hdirection)
        · exact hexpr
    · exact hexpr

end Settles

/-! ### Behind the last token -/

/-- The kinds of tokens that open a level inside themselves. -/
def selfNesting : List Kind := [.lBrace, .lParen, .minus, .tilde, .bang]

section AtEnd

variable {t : Token}

/-- The cursor behind all tokens, where the token `t` is seen. -/
def Cursor.behind (t : Token) : Cursor := ⟨[], t⟩

@[simp] theorem peek_behind : (Cursor.behind t).peek = t.kind := rfl

@[simp] theorem peekSecond_behind : (Cursor.behind t).peekSecond = t.kind := rfl

@[simp] theorem advance_behind : (Cursor.behind t).advance = Cursor.behind t := rfl

/-- A token that is a whole operand. -/
def IsAtom (k : Kind) : Prop := ∃ p, (atom? p k).isSome

theorem IsAtom.ends {k : Kind} (h : IsAtom k) : infix? k = none ∧ k ≠ .question ∧ k ≠ .semi := by
  obtain ⟨p, h⟩ := h
  cases k <;> first | exact ⟨rfl, Kind.noConfusion, Kind.noConfusion⟩ | cases h

/-- What an expression behind the last token comes to. -/
def AtomOf (t : Token) (x : Expr × Cursor) : Prop := x.2 = Cursor.behind t ∧ IsAtom t.kind

theorem unary?_eq_none {k : Kind} (h : k ∉ selfNesting) : unary? k = none := by
  cases k <;> first | rfl | exact absurd (by decide) h

section

variable (h : t.kind ∉ selfNesting)

include h

theorem primary_behind : Settles (fun d => (Cursor.behind t).primary d) 1 (AtomOf t) := by
  refine .call (k := 0) ?_ Nat.one_pos
  simp only [Cursor.primary, peek_behind, advance_behind]
  cases hatom : atom? (Cursor.behind t).span t.kind with
  | some e => exact .ok ⟨rfl, _, by rw [hatom]; rfl⟩
  | none =>
    refine .ite (fun hkind => absurd (by rw [hkind]; decide) h) fun _ => ?_
    exact .error ParseCause.noConfusion

theorem unary_behind : Settles (fun d => (Cursor.behind t).unary d) 2 (AtomOf t) := by
  refine .call (k := 1) ?_ (by omega)
  simp only [Cursor.unary, peek_behind, unary?_eq_none h]
  exact primary_behind h

theorem binary_behind (least : Nat) :
    Settles (fun d => (Cursor.behind t).binary d least) 3 (AtomOf t) := by
  refine .call (k := 2) ?_ (by omega)
  simp only [Cursor.binary]
  refine .bind (unary_behind h) ?_
  rintro ⟨e, c⟩ ⟨rfl, hatom⟩
  refine .call (k := 0) ?_ (by omega)
  simp only [Cursor.binaryTail, peek_behind, hatom.ends.1]
  exact .ok ⟨rfl, hatom⟩

/-- An operator is no operand, so nothing is read to its right. -/
theorem binaryTail_behind (least : Nat) (left : Expr) :
    Settles (fun d => (Cursor.behind t).binaryTail d least left) 4 (fun x => x.2 = Cursor.behind t) := by
  refine .call (k := 3) ?_ (by omega)
  simp only [Cursor.binaryTail, peek_behind, advance_behind]
  cases hop : infix? t.kind with
  | none => exact .ok rfl
  | some op =>
    refine .ite (fun _ => .ok rfl) fun _ => .bind (binary_behind h _) ?_
    rintro x ⟨-, hatom⟩
    cases hop.symm.trans hatom.ends.1

theorem expr_behind : Settles (fun d => (Cursor.behind t).expr d) 4 (AtomOf t) := by
  refine .call (k := 3) ?_ (by omega)
  simp only [Cursor.expr]
  refine .bind (binary_behind h 1) ?_
  rintro ⟨e, c⟩ ⟨rfl, hatom⟩
  exact .ite (fun hquestion => absurd hquestion hatom.ends.2.1) fun _ => .ok ⟨rfl, hatom⟩

/-- Behind the last token a simple statement is an operand, and no semicolon follows. -/
theorem simple_behind :
    Settles (fun d => (Cursor.behind t).simple d) 4 (fun x => x.2 = Cursor.behind t ∧ t.kind ≠ .semi) := by
  refine .simple (fun ty hty => ?_) (fun name op hname hop => ?_) (fun name direction hname hdirection => ?_) ?_
  · refine .expectName fun name hname => ?_
    rw [advance_behind, typeToken_of_type? hty] at hname
    cases ty <;> cases hname
  · rw [peekSecond_behind, ← peek_behind, hname] at hop
    cases hop
  · rw [peekSecond_behind, ← peek_behind, hname] at hdirection
    cases hdirection
  · refine .bind (expr_behind h) ?_
    rintro ⟨e, c⟩ ⟨rfl, hatom⟩
    exact .ok ⟨rfl, hatom.ends.2.2⟩

/-- No token is wanted twice in a row where a statement begins: the second one is
missing behind the last token. -/
theorem stmt_behind : Settles (fun d => (Cursor.behind t).stmt d) 5 (fun _ => False) := by
  refine .call (k := 4) ?_ (by omega)
  simp only [Cursor.stmt]
  split
  · next hpeek => exact absurd (by rw [← peek_behind, hpeek]; decide) h
  · next hpeek => exact .bind (.expect fun hparen => by cases hpeek.symm.trans hparen) fun _ => False.elim
  · next hpeek => exact .bind (.expect fun hparen => by cases hpeek.symm.trans hparen) fun _ => False.elim
  · next hpeek => exact .expect fun hparen => by cases hpeek.symm.trans hparen
  · next hpeek => exact .expect fun hsemi => by cases hpeek.symm.trans hsemi
  · next hpeek => exact .expect fun hsemi => by cases hpeek.symm.trans hsemi
  · next hpeek =>
    refine .bind (expr_behind (t := t) h) ?_
    rintro ⟨e, c⟩ ⟨-, p, hatom⟩
    rw [← peek_behind, hpeek] at hatom
    cases hatom
  · refine .bind (simple_behind h) ?_
    rintro ⟨s, c⟩ ⟨rfl, hsemi⟩
    exact .expect fun hpeek => absurd hpeek hsemi

theorem stmts_behind :
    Settles (fun d => (Cursor.behind t).stmts d) 6 (fun x => x.2 = Cursor.behind t) := by
  refine .call (k := 5) ?_ (by omega)
  simp only [Cursor.stmts]
  refine .ite (fun _ => .ok rfl) fun _ => .ite (fun _ => .error ParseCause.noConfusion) fun _ => ?_
  exact .bind (stmt_behind h) fun _ => False.elim

end

theorem func_behind (k : Nat) : Settles (fun d => (Cursor.behind t).func d) k (fun _ => False) := by
  unfold Cursor.func
  split
  · exact .error ParseCause.noConfusion
  · next ty hty =>
    refine .expectName fun name hname => ?_
    rw [advance_behind, typeToken_of_type? hty] at hname
    cases ty <;> cases hname

end AtEnd

/-! ### The depth that is enough -/

/-- The cursor sees `t` behind the last token, and at most `n` tokens before that. -/
structure Cursor.Within (t : Token) (n : Nat) (c : Cursor) : Prop where
  last : c.last = t
  rest : c.rest.length ≤ n

namespace Cursor.Within

variable {t : Token} {m n : Nat} {c : Cursor}

theorem mono (h : c.Within t m) (hmn : m ≤ n) : c.Within t n := ⟨h.last, h.rest.trans hmn⟩

/-- A token is read, or there was none. -/
theorem advance (h : c.Within t n) : c.advance.Within t (n - 1) := by
  refine ⟨h.last, ?_⟩
  rw [Cursor.advance, List.length_tail]
  exact Nat.sub_le_sub_right h.rest 1

theorem eq_behind (h : c.Within t 0) : c = Cursor.behind t := by
  obtain ⟨rest, last⟩ := c
  obtain ⟨hlast, hrest⟩ := h
  obtain rfl : rest = [] := List.eq_nil_of_length_eq_zero (Nat.le_zero.mp hrest)
  exact congrArg (Cursor.mk []) hlast

theorem behind (t : Token) : (Cursor.behind t).Within t n := ⟨rfl, Nat.zero_le _⟩

end Cursor.Within

open Cursor (Within)

variable {t : Token} {n : Nat}

/-- From every cursor before at most `n` tokens reading settles, at the depth `k`, and
leaves at most `m` tokens. -/
def SettlesWithin {α : Type} (t : Token) (n k m : Nat) (read : Nat → Cursor → Except Diagnostic (α × Cursor)) : Prop :=
  ∀ c, c.Within t n → Settles (fun d => read d c) k (fun x => x.2.Within t m)

/-- Expressions are read wherever there are at most `n` tokens. Each reading takes a
token, if there is one, save that of the rest of a chain. -/
structure SettledExprs (t : Token) (n : Nat) : Prop where
  primary : SettlesWithin t n (4 * n + 1) (n - 1) Cursor.primary
  unary : SettlesWithin t n (4 * n + 2) (n - 1) Cursor.unary
  binary : ∀ least, SettlesWithin t n (4 * n + 3) (n - 1) (Cursor.binary · least)
  binaryTail : ∀ least left, SettlesWithin t n (4 * n + 4) n (Cursor.binaryTail · least left)
  expr : SettlesWithin t n (4 * n + 4) (n - 1) Cursor.expr

theorem SettledExprs.zero (h : t.kind ∉ selfNesting) : SettledExprs t 0 := by
  have hatom : ∀ x, AtomOf t x → x.2.Within t 0 := by
    rintro x ⟨hx, -⟩
    rw [hx]
    exact .behind t
  refine ⟨?_, ?_, fun least => ?_, fun least left => ?_, ?_⟩ <;> intro c hc <;> rw [hc.eq_behind]
  · exact (primary_behind h).mono le_rfl hatom
  · exact (unary_behind h).mono le_rfl hatom
  · exact (binary_behind h least).mono le_rfl hatom
  · exact (binaryTail_behind h least left).mono le_rfl fun x hx => by rw [hx]; exact .behind t
  · exact (expr_behind h).mono le_rfl hatom

theorem SettledExprs.succ (h : SettledExprs t n) : SettledExprs t (n + 1) := by
  have hprimary : SettlesWithin t (n + 1) (4 * n + 5) n Cursor.primary := by
    intro c hc
    refine .call (k := 4 * n + 4) ?_ (by omega)
    simp only [Cursor.primary]
    split
    · exact .ok hc.advance
    · refine .ite (fun _ => .bind (h.expr _ hc.advance) ?_) fun _ => .error ParseCause.noConfusion
      rintro ⟨e, c⟩ hc
      exact .expect fun _ => .ok (hc.advance.mono (by omega))
  have hunary : SettlesWithin t (n + 1) (4 * n + 6) n Cursor.unary := by
    intro c hc
    refine .call (k := 4 * n + 5) ?_ (by omega)
    simp only [Cursor.unary]
    split
    · refine .bind ((h.unary _ hc.advance).mono (by omega) fun _ => id) ?_
      rintro ⟨e, c⟩ hc
      exact .ok (hc.mono (by omega))
    · exact hprimary c hc
  have hbinary : ∀ least, SettlesWithin t (n + 1) (4 * n + 7) n (Cursor.binary · least) := by
    intro least c hc
    refine .call (k := 4 * n + 6) ?_ (by omega)
    simp only [Cursor.binary]
    refine .bind (hunary c hc) ?_
    rintro ⟨left, c⟩ hc
    exact (h.binaryTail least left c hc).mono (by omega) fun _ => id
  have hexpr : SettlesWithin t (n + 1) (4 * n + 8) n Cursor.expr := by
    intro c hc
    refine .call (k := 4 * n + 7) ?_ (by omega)
    simp only [Cursor.expr]
    refine .bind (hbinary 1 c hc) ?_
    rintro ⟨condition, c⟩ hc
    refine .ite (fun _ => ?_) fun _ => .ok hc
    refine .bind ((h.expr _ (hc.advance.mono (by omega))).mono (by omega) fun _ => id) ?_
    rintro ⟨ifTrue, c⟩ hc
    refine .expect fun _ => .bind ((h.expr _ (hc.advance.mono (by omega))).mono (by omega) fun _ => id) ?_
    rintro ⟨ifFalse, c⟩ hc
    exact .ok (hc.mono (by omega))
  refine ⟨hprimary, hunary, hbinary, fun least left c hc => ?_, hexpr⟩
  refine .call (k := 4 * n + 4) ?_ (by omega)
  simp only [Cursor.binaryTail]
  split
  · exact .ok hc
  · refine .ite (fun _ => .ok hc) fun _ => .bind ((h.binary _ _ hc.advance).mono (by omega) fun _ => id) ?_
    rintro ⟨right, c⟩ hc
    exact (h.binaryTail _ _ c (hc.mono (by omega))).mono le_rfl fun x hx => hx.mono (by omega)

/-- **Expressions are read to an end**, whatever the number of tokens. -/
theorem settled_exprs (h : t.kind ∉ selfNesting) : ∀ n, SettledExprs t n
  | 0 => .zero h
  | n + 1 => (settled_exprs h n).succ

section Statements

variable (h : t.kind ∉ selfNesting)
include h

theorem condition_settles (n : Nat) : SettlesWithin t n (4 * n + 4) n Cursor.condition := by
  intro c hc
  refine .expect fun _ => .bind ((settled_exprs h n).expr _ (hc.advance.mono (by omega))) ?_
  rintro ⟨value, c⟩ hc
  exact .expect fun _ => .ok (hc.advance.mono (by omega))

theorem simple_settles (n : Nat) : SettlesWithin t n (4 * n + 4) (n - 1) Cursor.simple := by
  intro c hc
  have hexpr := (settled_exprs h n).expr
  refine .simple (fun ty _ => ?_) (fun name op _ _ => ?_) (fun name direction _ _ => ?_) ?_
  · refine .expectName fun name _ => .ite (fun _ => ?_) fun _ => .ok (hc.advance.advance.mono (by omega))
    refine .bind (hexpr _ (hc.advance.advance.advance.mono (by omega))) ?_
    rintro ⟨value, c⟩ hc
    exact .ok hc
  · refine .bind (hexpr _ (hc.advance.advance.mono (by omega))) ?_
    rintro ⟨value, c⟩ hc
    exact .ok hc
  · exact hc.advance.advance.mono (by omega)
  · refine .bind (hexpr c hc) ?_
    rintro ⟨value, c⟩ hc
    exact .ok hc

theorem simpleBefore_settles (n : Nat) (stop : Kind) :
    SettlesWithin t n (4 * n + 4) n (Cursor.simpleBefore · stop) := by
  intro c hc
  refine .ite (fun _ => .ok hc) fun _ => .bind (simple_settles h n c hc) ?_
  rintro ⟨s, c⟩ hc
  exact .ok (hc.mono (by omega))

theorem forStep_settles (n : Nat) : SettlesWithin t n (4 * n + 4) n Cursor.forStep := by
  intro c hc
  refine .bind (simpleBefore_settles h n .rParen c hc) ?_
  rintro ⟨_ | s, c⟩ hc
  · exact .ok hc
  · exact .ite (fun _ => .error ParseCause.noConfusion) fun _ => .ok hc

end Statements

/-- Statements are read wherever there are at most `n` tokens. Each reading takes a
token, if there is one. -/
structure SettledStmts (t : Token) (n : Nat) : Prop where
  stmt : SettlesWithin t n (4 * n + 5) (n - 1) Cursor.stmt
  stmts : SettlesWithin t n (4 * n + 6) (n - 1) Cursor.stmts

theorem SettledStmts.zero (h : t.kind ∉ selfNesting) : SettledStmts t 0 := by
  refine ⟨?_, ?_⟩ <;> intro c hc <;> rw [hc.eq_behind]
  · exact (stmt_behind h).mono le_rfl fun _ => False.elim
  · exact (stmts_behind h).mono le_rfl fun x hx => by rw [hx]; exact .behind t

theorem SettledStmts.block (h : SettledStmts t n) : SettlesWithin t (n + 1) (4 * n + 7) n Cursor.block := by
  intro c hc
  refine .call (k := 4 * n + 6) ?_ (by omega)
  simp only [Cursor.block]
  exact .expect fun _ => (h.stmts _ hc.advance).mono le_rfl fun x hx => hx.mono (by omega)

theorem SettledStmts.succ (hlast : t.kind ∉ selfNesting) (h : SettledStmts t n) : SettledStmts t (n + 1) := by
  -- what stands inside a statement has at most `n` tokens before it
  have hexpr : SettlesWithin t n (4 * n + 8) n Cursor.expr := fun c hc =>
    ((settled_exprs hlast n).expr c hc).mono (by omega) fun x hx => hx.mono (by omega)
  have hcondition : SettlesWithin t n (4 * n + 8) n Cursor.condition := fun c hc =>
    (condition_settles hlast n c hc).mono (by omega) fun _ => id
  have hinner : SettlesWithin t n (4 * n + 8) n Cursor.stmt := fun c hc =>
    (h.stmt c hc).mono (by omega) fun x hx => hx.mono (by omega)
  have hstmt : SettlesWithin t (n + 1) (4 * n + 9) n Cursor.stmt := by
    intro c hc
    refine .call (k := 4 * n + 8) ?_ (by omega)
    simp only [Cursor.stmt]
    split
    · refine .bind ((h.block c hc).mono (by omega) fun _ => id) ?_
      rintro ⟨body, c⟩ hc
      exact .ok hc
    · refine .bind (hcondition _ hc.advance) ?_
      rintro ⟨condition, c⟩ hc
      refine .bind (hinner c hc) ?_
      rintro ⟨ifTrue, c⟩ hc
      refine .ite (fun _ => .bind (hinner _ (hc.advance.mono (by omega))) ?_) fun _ => .ok hc
      rintro ⟨ifFalse, c⟩ hc
      exact .ok hc
    · refine .bind (hcondition _ hc.advance) ?_
      rintro ⟨condition, c⟩ hc
      refine .bind (hinner c hc) ?_
      rintro ⟨body, c⟩ hc
      exact .ok hc
    · refine .expect fun _ => ?_
      refine .bind ((simpleBefore_settles hlast n .semi _ (hc.advance.advance.mono (by omega))).mono (by omega)
        fun _ => id) ?_
      rintro ⟨init, c⟩ hc
      refine .expect fun _ => .bind (hexpr _ (hc.advance.mono (by omega))) ?_
      rintro ⟨condition, c⟩ hc
      refine .expect fun _ => ?_
      refine .bind ((forStep_settles hlast n _ (hc.advance.mono (by omega))).mono (by omega) fun _ => id) ?_
      rintro ⟨step, c⟩ hc
      refine .expect fun _ => .bind (hinner _ (hc.advance.mono (by omega))) ?_
      rintro ⟨body, c⟩ hc
      exact .ok hc
    · exact .expect fun _ => .ok (hc.advance.advance.mono (by omega))
    · exact .expect fun _ => .ok (hc.advance.advance.mono (by omega))
    · refine .bind (hexpr _ hc.advance) ?_
      rintro ⟨value, c⟩ hc
      exact .expect fun _ => .ok (hc.advance.mono (by omega))
    · refine .bind ((simple_settles hlast (n + 1) c hc).mono (by omega) fun _ => id) ?_
      rintro ⟨s, c⟩ hc
      exact .expect fun _ => .ok (hc.advance.mono (by omega))
  refine ⟨hstmt, fun c hc => ?_⟩
  refine .call (k := 4 * n + 9) ?_ (by omega)
  simp only [Cursor.stmts]
  refine .ite (fun _ => .ok hc.advance) fun _ => .ite (fun _ => .error ParseCause.noConfusion) fun _ => ?_
  refine .bind (hstmt c hc) ?_
  rintro ⟨first, c⟩ hc
  refine .bind ((h.stmts c hc).mono (by omega) fun _ => id) ?_
  rintro ⟨others, c⟩ hc
  exact .ok (hc.mono (by omega))

/-- **Statements are read to an end**, whatever the number of tokens. -/
theorem settled_stmts (h : t.kind ∉ selfNesting) : ∀ n, SettledStmts t n
  | 0 => .zero h
  | n + 1 => (settled_stmts h n).succ h

theorem func_settles (h : t.kind ∉ selfNesting) (n : Nat) :
    SettlesWithin t (n + 1) (4 * n + 7) n Cursor.func := by
  intro c hc
  unfold Cursor.func
  split
  · exact .error ParseCause.noConfusion
  · refine .expectName fun name _ => .expect fun _ => .expect fun _ => ?_
    refine .bind ((settled_stmts h n).block _ (hc.advance.advance.advance.advance.mono (by omega))) ?_
    rintro ⟨body, c⟩ hc
    exact .ok hc

/-- **Functions are read to an end.** -/
theorem funcs_settles (h : t.kind ∉ selfNesting) : ∀ n, SettlesWithin t n (4 * n + 4) n Cursor.funcs
  | 0 => by
    intro c hc
    rw [hc.eq_behind]
    refine .call (k := 0) ?_ (by omega)
    simp only [Cursor.funcs]
    exact .ite (fun _ => .ok (.behind t)) fun _ => .bind (func_behind 0) fun _ => False.elim
  | n + 1 => by
    intro c hc
    refine .call (k := 4 * n + 7) ?_ (by omega)
    simp only [Cursor.funcs]
    refine .ite (fun _ => .ok hc) fun _ => .bind (func_settles h n c hc) ?_
    rintro ⟨first, c⟩ hc
    refine .bind ((funcs_settles h n c hc).mono (by omega) fun _ => id) ?_
    rintro ⟨others, c⟩ hc
    exact .ok (hc.mono (by omega))

/-! ### Token lists -/

section Programs

variable {tokens : List Token}

theorem within_ofTokens (tokens : List Token) :
    (Cursor.ofTokens tokens).Within (tokens.getLast?.getD ⟨.eof, ⟨0, 0⟩⟩) tokens.length := ⟨rfl, le_rfl⟩

/-- The functions of a list of tokens are read to an end within the depth that is
allowed. -/
theorem ofTokens_settles (h : ∀ t ∈ tokens.getLast?, t.kind ∉ selfNesting) :
    Settles (fun d => (Cursor.ofTokens tokens).funcs d) (depthFor tokens) (fun _ => True) := by
  have hlast : (tokens.getLast?.getD ⟨.eof, ⟨0, 0⟩⟩).kind ∉ selfNesting := by
    cases hl : tokens.getLast? with
    | none => decide
    | some t => exact h t hl
  have hdepth : 4 * tokens.length + 4 ≤ depthFor tokens := by
    rw [depthFor]
    omega
  exact (funcs_settles hlast _ _ (within_ofTokens tokens)).mono hdepth fun _ _ => trivial

/-- Tokens that are passed are taken from the front, and the end mark is not among
them. -/
theorem Cursor.Moves.rest_eq {c c' : Cursor} {ks : List Kind} (h : Cursor.Moves c ks c') :
    ∃ passed, c.rest = passed ++ c'.rest ∧ ∀ t ∈ passed, t.kind ≠ .eof := by
  induction h with
  | done => exact ⟨[], rfl, by simp⟩
  | @token t rest last ks c ht _ ih =>
    obtain ⟨passed, hrest, hpassed⟩ := ih
    exact ⟨t :: passed, congrArg (t :: ·) hrest, List.forall_mem_cons.mpr ⟨ht, hpassed⟩⟩

/-- Where reading succeeds, it stops before the first end mark. -/
theorem funcs_stop {depth : Nat} {fs : List Func} {c : Cursor} (hend : ∃ stop ∈ tokens.getLast?, stop.kind = .eof)
    (h : (Cursor.ofTokens tokens).funcs depth = .ok (fs, c)) :
    ∃ passed stop behind, tokens = passed ++ stop :: behind ∧ c.rest = stop :: behind ∧ stop.kind = .eof ∧
      ∀ t ∈ passed, t.kind ≠ .eof := by
  obtain ⟨last, hlast, hkind⟩ := hend
  have heof : (Cursor.ofTokens tokens).last.kind = .eof := by
    rw [Cursor.ofTokens, Option.mem_def.mp hlast]
    exact hkind
  obtain ⟨⟨ks, hmoves, -⟩, hpeek⟩ := funcs_spells depth heof h
  obtain ⟨passed, hrest, hpassed⟩ := hmoves.rest_eq
  cases hc : c.rest with
  | nil =>
    -- then the end mark itself would have been passed
    rw [hc, List.append_nil] at hrest
    exact absurd hkind (hpassed last (hrest ▸ List.mem_of_mem_getLast? hlast))
  | cons stop behind =>
    rw [hc] at hrest
    refine ⟨passed, stop, behind, hrest, rfl, ?_, hpassed⟩
    rw [← hpeek, Cursor.peek, Cursor.current, hc]
    rfl

theorem getLast?_of_tokenize {source : String} (h : Token.tokenize source = .ok tokens) :
    ∃ stop ∈ tokens.getLast?, stop.kind = .eof := by
  rcases Token.decomposes_or_stuck [] source.toList with ⟨tokens', h'⟩ | ⟨d, h'⟩
  · obtain rfl := Except.ok.inj ((Token.tokenize_of_decomposes h').symm.trans h)
    obtain ⟨front, stop, rfl, hstop, -⟩ := h'.end_mark
    exact ⟨stop, by simp, hstop⟩
  · cases (Token.tokenize_of_stuck h').symm.trans h

end Programs

/-- **Reading comes to an end** on every list of tokens that is empty or whose last
token opens no level inside itself. There is one answer for every depth from the
allowed one on, so the bound is never felt: it is a program, or an error of the reader
that does not speak of the bound. Where the last token is the end mark, as it is for
the tokens of every text, a program is read without taking an end mark or anything
behind it. -/
theorem parse_settles (tokens : List Token) (h : ∀ t ∈ tokens.getLast?, t.kind ∉ selfNesting) :
    ∃ answer : Except Diagnostic (List Func × Cursor),
      (∀ depth, depthFor tokens ≤ depth → (Cursor.ofTokens tokens).funcs depth = answer) ∧
      parse tokens = answer.map (fun x => ⟨x.1⟩) ∧
      ((∃ fs c, answer = .ok (fs, c)) ∨
        ∃ p cause, answer = .error (.parse p cause) ∧ cause ≠ .endlessNesting) ∧
      (∀ source, Token.tokenize source = .ok tokens → ∃ stop ∈ tokens.getLast?, stop.kind = .eof) ∧
      ((∃ stop ∈ tokens.getLast?, stop.kind = .eof) → ∀ fs c, answer = .ok (fs, c) →
        ∃ passed stop behind, tokens = passed ++ stop :: behind ∧ c.rest = stop :: behind ∧
          stop.kind = .eof ∧ ∀ t ∈ passed, t.kind ≠ .eof) := by
  obtain ⟨answer, hanswer, hread⟩ := ofTokens_settles h
  refine ⟨answer, hread, ?_, ?_, fun source => getLast?_of_tokenize, fun hend fs c hok => ?_⟩
  · have hfuncs : (Cursor.ofTokens tokens).funcs (depthFor tokens) = answer := hread _ le_rfl
    rw [parse, hfuncs]
    cases answer <;> rfl
  · cases hanswer with
    | @ok x _ => exact .inl ⟨x.1, x.2, rfl⟩
    | error hcause => exact .inr ⟨_, _, rfl, hcause⟩
  · exact funcs_stop hend ((hread _ le_rfl).trans hok)

/-- The program of `nestedIf` without its end mark: behind the last brace the reader
sees that brace again, where it wants another function. -/
theorem nestedIf_settles : nestedIf.getLast?.map Token.kind = some .rBrace ∧
    ∀ depth, depthFor nestedIf ≤ depth →
      (Cursor.ofTokens nestedIf).funcs depth = .error (.parse .start (.expectedReturnType .rBrace)) := by
  obtain ⟨answer, hsame, -⟩ := parse_settles nestedIf (by decide)
  refine ⟨rfl, fun depth hdepth => ?_⟩
  rw [hsame depth hdepth, ← hsame _ le_rfl]
  rfl

/-! ### Tokens that open a level inside themselves -/

/-- The answer that reports the bound on the depth. -/
def Endless {α : Type} (r : Except Diagnostic α) : Prop := ∃ p, r = .error (.parse p .endlessNesting)

theorem Endless.bind {α β : Type} {r : Except Diagnostic α} (h : Endless r) (next : α → Except Diagnostic β) :
    Endless (r >>= next) := by
  obtain ⟨p, rfl⟩ := h
  exact ⟨p, rfl⟩

/-- All that the cursor will ever see is tokens of the kind `k`. -/
structure Cursor.SeesOnly (k : Kind) (c : Cursor) : Prop where
  rest : ∀ t ∈ c.rest, t.kind = k
  last : c.last.kind = k

namespace Cursor.SeesOnly

variable {k : Kind} {c : Cursor}

theorem peek (h : c.SeesOnly k) : c.peek = k := by
  obtain ⟨rest, last⟩ := c
  cases rest with
  | nil => exact h.last
  | cons t rest => exact h.rest t List.mem_cons_self

theorem advance (h : c.SeesOnly k) : c.advance.SeesOnly k :=
  ⟨fun t ht => h.rest t (List.mem_of_mem_tail ht), h.last⟩

end Cursor.SeesOnly

section SeesOnly

variable {k : Kind} (hk : k ∈ selfNesting)
include hk

/-- Among unary operators or opening parentheses no operand is ever complete. -/
theorem expr_endless (hbrace : k ≠ .lBrace) : ∀ (d : Nat) (c : Cursor), c.SeesOnly k →
    Endless (c.expr d) ∧ (∀ least, Endless (c.binary d least)) ∧ Endless (c.unary d) ∧
      (unary? k = none → Endless (c.primary d))
  | 0, _, _ => ⟨⟨_, rfl⟩, fun _ => ⟨_, rfl⟩, ⟨_, rfl⟩, fun _ => ⟨_, rfl⟩⟩
  | d + 1, c, h => by
    obtain ⟨-, hbinary, hunary, hprimary⟩ := expr_endless hbrace d c h
    obtain ⟨hinner, -, hoperand, -⟩ := expr_endless hbrace d c.advance h.advance
    refine ⟨(hbinary 1).bind _, fun least => hunary.bind _, ?_, fun hop => ?_⟩
    · rw [Cursor.unary, h.peek]
      split
      · exact hoperand.bind _
      · next hop => exact hprimary hop
    · have hparen : k = .lParen := by
        simp only [selfNesting, List.mem_cons, List.not_mem_nil, or_false] at hk
        rcases hk with rfl | rfl | rfl | rfl | rfl
        · exact absurd rfl hbrace
        · rfl
        all_goals cases hop
      rw [Cursor.primary, h.peek, hparen]
      exact hinner.bind _

theorem simple_endless (hbrace : k ≠ .lBrace) (d : Nat) {c : Cursor} (h : c.SeesOnly k) :
    Endless (c.simple d) := by
  have hexpr : Endless (c.exprStmt d) := (expr_endless hk hbrace d c h).1.bind _
  simp only [selfNesting, List.mem_cons, List.not_mem_nil, or_false] at hk
  rw [Cursor.simple, h.peek]
  rcases hk with rfl | rfl | rfl | rfl | rfl <;> exact hexpr

/-- Among tokens that open a level inside themselves no list of statements ends. -/
theorem stmts_endless : ∀ (d : Nat) (c : Cursor), c.SeesOnly k →
    Endless (c.stmts d) ∧ Endless (c.stmt d) ∧ (k = .lBrace → Endless (c.block d))
  | 0, _, _ => ⟨⟨_, rfl⟩, ⟨_, rfl⟩, fun _ => ⟨_, rfl⟩⟩
  | d + 1, c, h => by
    obtain ⟨-, hstmt, hblock⟩ := stmts_endless d c h
    refine ⟨?_, ?_, fun hbrace => ?_⟩
    · have hnot : c.peek ≠ .rBrace ∧ c.peek ≠ .eof := by
        rw [h.peek]
        exact ⟨fun heq => absurd (heq ▸ hk) (by decide), fun heq => absurd (heq ▸ hk) (by decide)⟩
      rw [Cursor.stmts, if_neg hnot.1, if_neg hnot.2]
      exact hstmt.bind _
    · by_cases hbrace : k = .lBrace
      · rw [Cursor.stmt, h.peek, hbrace]
        exact (hblock hbrace).bind _
      · have houtside : c.peek ∉ outsideSimple := by
          rw [h.peek]
          have hall : ∀ k ∈ selfNesting, k ≠ .lBrace → k ∉ outsideSimple := by decide
          exact hall k hk hbrace
        rw [stmt_of_simple d houtside]
        exact (simple_endless hk hbrace d h).bind _
    · rw [Cursor.block, Cursor.expect_of_peek (h.peek.trans hbrace)]
      exact (stmts_endless d c.advance h.advance).1

/-- **The five kinds are a real exception.** For each of them there is a list that ends
in it and whose reading never ends: no depth is enough. -/
theorem funcs_endless (p : Span) (depth : Nat) :
    Endless ((Cursor.ofTokens ([.int, .ident "main", .lParen, .rParen, .lBrace, k].map (⟨·, p⟩))).funcs depth) := by
  have hbody : ∀ d, Endless ((⟨[⟨.lBrace, p⟩, ⟨k, p⟩], ⟨k, p⟩⟩ : Cursor).block d) := by
    intro d
    cases d with
    | zero => exact ⟨_, rfl⟩
    | succ d => exact (stmts_endless hk d ⟨[⟨k, p⟩], ⟨k, p⟩⟩ ⟨by simp, rfl⟩).1
  cases depth with
  | zero => exact ⟨_, rfl⟩
  | succ depth => exact ((hbody depth).bind _).bind _

end SeesOnly

end Chordal.Syntax
