/-
# The reader accepts exactly the grammar

What is spelled is read. Together with the other direction this makes the reader
a decision procedure for the grammar: it returns a program, up to places, if and
only if the tokens spell it, and so no list of tokens spells two programs.

Only what comes next decides whether the reader goes on, so each part of the
grammar is read under a condition on the token behind it. Behind an expression
stands a token that cannot continue it (`Cursor.Closed`). A chain of operators is
followed through its left parts: reading a chain of level `n` comes to the point
where the chain is read and the rest of the loop is ahead (`Chained`), for every
level `least ≤ n` that the loop was started with.

A token opens at most four levels of calls, so a depth of four times the number of
tokens is enough.

Key definitions: `Yields`, `Chained`, `ReadAt`.
Key theorems: `readAt_of_spells`, `stmt_yields`, `parse_ok_iff_spells`.
-/
import Mathlib
import Chordal.Proofs.Syntax.Reading

namespace Chordal.Syntax

open Token (Kind)

namespace Cursor

variable {c c' c'' : Cursor} {ks ks' : List Kind} {k : Kind}

theorem Moves.cons_inv (h : Moves c (k :: ks) c') : c.peek = k ∧ Moves c.advance ks c' := by
  cases h with
  | token _ h => exact ⟨rfl, h⟩

/-- Behind the first token there is depth for the others. -/
theorem Moves.enter {d : Nat} (h : Moves c (k :: ks) c') (hd : 4 * (k :: ks).length ≤ d) :
    ∃ d', d = d' + 1 ∧ 4 * ks.length + 3 ≤ d' ∧ c.peek = k ∧ Moves c.advance ks c' := by
  rw [List.length_cons] at hd
  exact ⟨d - 1, by omega, by omega, h.cons_inv⟩

theorem Moves.nil_inv (h : Moves c [] c') : c' = c := by
  cases h
  rfl

theorem Moves.split : ∀ {ks : List Kind} {c : Cursor}, Moves c (ks ++ ks') c'' →
    ∃ c', Moves c ks c' ∧ Moves c' ks' c''
  | [], c, h => ⟨c, .done, h⟩
  | _ :: _, _, .token hk h => by
    obtain ⟨c', h₁, h₂⟩ := split h
    exact ⟨c', .token hk h₁, h₂⟩

/-- The next token and the rest, when something comes first. -/
theorem Moves.split_cons (h : Moves c (ks ++ k :: ks') c'') :
    ∃ c', Moves c ks c' ∧ c'.peek = k ∧ Moves c'.advance ks' c'' := by
  obtain ⟨c', h₁, h₂⟩ := h.split
  exact ⟨c', h₁, h₂.cons_inv⟩

theorem expect_of_peek (h : c.peek = k) : c.expect k = .ok c.advance := if_pos h

/-- The kind of the next token is among those that are passed. -/
theorem Moves.peek_mem (h : Moves c ks c') (hne : ks ≠ []) : c.peek ∈ ks := by
  cases h with
  | done => exact absurd rfl hne
  | token => exact List.mem_cons_self

/-- The next token does not continue an expression. -/
def Closed (c : Cursor) : Prop := infix? c.peek = none ∧ c.peek ≠ .question

theorem Closed.nextWithin (h : c.Closed) (n : Nat) : c.NextWithin n := fun op m hm => by
  rw [h.1] at hm
  cases hm

theorem closed_of_peek (h : c.peek = k) (hk : infix? k = none ∧ k ≠ .question) : c.Closed := by
  unfold Closed
  rwa [h]

theorem NextWithin.mono {m n : Nat} (h : c.NextWithin m) (hmn : m ≤ n) : c.NextWithin n :=
  fun op i hi => (h op i hi).trans hmn

end Cursor

open Cursor

/-! ### Tokens of the grammar and of the reader -/

theorem type?_typeToken (ty : Ty) : type? (typeToken ty) = some ty := by cases ty <;> rfl

variable {k : Kind} {c c' : Cursor}

theorem unary?_of_mem {op : UnaryOp} (h : (k, op) ∈ unaryTokens) : unary? k = some op := by
  have hall : ∀ pair ∈ unaryTokens, unary? pair.1 = some pair.2 := by decide
  exact hall _ h

theorem assignment?_of_mem {op : Option BinaryOp} (h : (k, op) ∈ assignTokens) :
    assignment? k = some op := by
  have hall : ∀ pair ∈ assignTokens, assignment? pair.1 = some pair.2 := by decide
  exact hall _ h

theorem count?_of_mem {direction : Count} (h : (k, direction) ∈ countTokens) :
    count? k = some direction ∧ assignment? k = none := by
  have hall : ∀ pair ∈ countTokens, count? pair.1 = some pair.2 ∧ assignment? pair.1 = none := by decide
  exact hall _ h

theorem infix?_of_mem {n : Nat} {op : BinaryOp} (h : (k, op) ∈ binaryTokens n) :
    infix? k = some (.plain op, n) := by
  have hn : n < 11 := lt_of_mem_binaryTokens h
  have hall : ∀ n < 11, ∀ pair ∈ binaryTokens n, infix? pair.1 = some (.plain pair.2, n) := by decide
  exact hall n hn _ h

/-- A token of an expression names no type, and does not assign or count. -/
theorem kinds_of_not_outside (h : k ∉ outsideExpr) :
    type? k = none ∧ assignment? k = none ∧ count? k = none := by
  cases k <;> first | exact ⟨rfl, rfl, rfl⟩ | exact absurd (by decide) h

/-! ### Expressions -/

/-- The reader stops at `c'` with something that differs from `a` in places only. -/
def Yields {α : Type} (forget : α → α) (r : Except Diagnostic (α × Cursor)) (a : α) (c' : Cursor) : Prop :=
  ∃ a', r = .ok (a', c') ∧ forget a' = forget a

/-- The reader goes on with what it has read. -/
theorem Yields.bind {α β : Type} {forget : α → α} {forget' : β → β}
    {r : Except Diagnostic (α × Cursor)} {a : α} {b : β}
    {next : α × Cursor → Except Diagnostic (β × Cursor)} (h : Yields forget r a c)
    (hnext : ∀ a', forget a' = forget a → Yields forget' (next (a', c)) b c') :
    Yields forget' (r >>= next) b c' := by
  obtain ⟨a', rfl, hsame⟩ := h
  exact hnext a' hsame

/-- The reader goes on behind a token that has to come next. -/
theorem Yields.expect {α : Type} {forget : α → α} {a : α}
    {next : Cursor → Except Diagnostic (α × Cursor)} (hk : c.peek = k)
    (h : Yields forget (next c.advance) a c') : Yields forget (c.expect k >>= next) a c' := by
  rwa [expect_of_peek hk]

/-- Reading a chain from `c` comes to `c'` with the left part `e`, and the rest of
the loop is ahead. At most `length` levels of depth are used up. -/
def Chained (d least : Nat) (c : Cursor) (e : Expr) (c' : Cursor) (length : Nat) : Prop :=
  ∃ d' e', d ≤ d' + length ∧ c.binary d least = c'.binaryTail d' least e' ∧ e'.unplaced = e.unplaced

/-- The expression is read where a primary is asked for. -/
def PrimaryAt (ks : List Kind) (e : Expr) : Prop := ∀ d c c', Moves c ks c' → 4 * ks.length ≤ d + 3 →
  Yields Expr.unplaced (c.primary d) e c'

/-- The expression is read where an operand is asked for. -/
def UnaryAt (ks : List Kind) (e : Expr) : Prop := ∀ d c c', Moves c ks c' → 4 * ks.length ≤ d + 2 →
  Yields Expr.unplaced (c.unary d) e c'

/-- The expression is read as the left part of a chain, if what follows binds no
tighter than level `n`. -/
def ChainAt (n : Nat) (ks : List Kind) (e : Expr) : Prop := ∀ d c c' least, Moves c ks c' →
  4 * ks.length ≤ d + 1 → least ≤ n → c'.NextWithin n → Chained d least c e c' ks.length

/-- The expression is read, if what follows does not continue it. -/
def ExprAt (ks : List Kind) (e : Expr) : Prop := ∀ d c c', Moves c ks c' → 4 * ks.length ≤ d → c'.Closed →
  Yields Expr.unplaced (c.expr d) e c'

/-- What is spelled at a level is read wherever that level or a looser one is asked
for. -/
structure ReadAt (n : Nat) (ks : List Kind) (e : Expr) : Prop where
  primary : 12 ≤ n → PrimaryAt ks e
  unary : 11 ≤ n → UnaryAt ks e
  chain : 1 ≤ n → ChainAt n ks e
  expr : ExprAt ks e

section Expressions

variable {n : Nat} {ks ks' : List Kind} {e : Expr}

theorem PrimaryAt.unaryAt (h : PrimaryAt ks e) (hne : ks ≠ []) (hhead : ∀ k ∈ ks.head?, unary? k = none) :
    UnaryAt ks e := by
  intro d c c' hmove hd
  obtain ⟨k, rest, rfl⟩ := List.exists_cons_of_ne_nil hne
  rw [List.length_cons] at hd
  obtain _ | d := d
  · omega
  have hunary : unary? c.peek = none := by
    rw [hmove.cons_inv.1]
    exact hhead k rfl
  obtain ⟨e', he, hsame⟩ := h d c c' hmove (by rw [List.length_cons]; omega)
  refine ⟨e', ?_, hsame⟩
  simp only [Cursor.unary, hunary]
  exact he

theorem UnaryAt.chainAt (h : UnaryAt ks e) (hpos : 0 < ks.length) : ChainAt n ks e := by
  intro d c c' least hmove hd _ _
  obtain _ | d := d
  · omega
  obtain ⟨e', he, hsame⟩ := h d c c' hmove (by omega)
  refine ⟨d, e', by omega, ?_, hsame⟩
  rw [Cursor.binary, he]
  rfl

/-- The loop stops where no operator comes next that it would take. -/
theorem binaryTail_stops (least : Nat) {d : Nat} {c : Cursor} (hd : 0 < d) (hnext : c.NextWithin least) (left : Expr) :
    c.binaryTail d (least + 1) left = .ok (left, c) := by
  obtain _ | d := d
  · omega
  rw [Cursor.binaryTail]
  cases hop : infix? c.peek with
  | none => rfl
  | some pair => exact if_pos (Nat.lt_succ_of_le (hnext pair.1 pair.2 hop))

theorem ChainAt.exprAt (h : ChainAt n ks e) (hn : 1 ≤ n) (hpos : 0 < ks.length) : ExprAt ks e := by
  intro d c c' hmove hd hclosed
  obtain _ | d := d
  · omega
  obtain ⟨d', e', hd', hchain, hsame⟩ := h d c c' 1 hmove (by omega) hn (hclosed.nextWithin n)
  refine ⟨e', ?_, hsame⟩
  have hbinary : c.binary d 1 = .ok (e', c') := by
    rw [hchain]
    exact binaryTail_stops 0 (by omega) (hclosed.nextWithin 0) e'
  rw [Cursor.expr, hbinary]
  exact if_neg hclosed.2

theorem unplaced_apply {op : Infix} {p q : Span} {a a' b b' : Expr} (ha : a.unplaced = a'.unplaced)
    (hb : b.unplaced = b'.unplaced) : (op.apply p a b).unplaced = (op.apply q a' b').unplaced := by
  cases op <;> simp [Infix.apply, Expr.unplaced, ha, hb]

/-- An operator is read behind its left part, and its right part up to the next
operator that is not tighter. -/
theorem ChainAt.operator {k : Kind} {op : Infix} {p : Span} {a b : Expr} (hk : infix? k = some (op, n))
    (ha : ChainAt n ks a) (hb : ChainAt (n + 1) ks' b) (he : e.unplaced = (op.apply p a b).unplaced)
    (hpos : 0 < ks'.length) : ChainAt n (ks ++ k :: ks') e := by
  intro d c c' least hmove hd hleast hnext
  rw [List.length_append, List.length_cons] at hd
  obtain ⟨c₁, hmove₁, hpeek, hmove₂⟩ := hmove.split_cons
  have hnext₁ : c₁.NextWithin n := fun op' m hm => by
    rw [hpeek, hk] at hm
    obtain ⟨-, rfl⟩ := Prod.mk.inj (Option.some.inj hm)
    exact le_rfl
  obtain ⟨d₁, a', hd₁, hleft, hsame⟩ := ha d c c₁ least hmove₁ (by omega) hleast hnext₁
  obtain _ | d₁ := d₁
  · omega
  obtain ⟨d₂, b', hd₂, hright, hsame'⟩ :=
    hb d₁ c₁.advance c' (n + 1) hmove₂ (by omega) le_rfl (hnext.mono (Nat.le_succ n))
  rw [binaryTail_stops n (by omega) hnext b'] at hright
  refine ⟨d₁, op.apply c₁.span a' b', ?_, ?_, ?_⟩
  · rw [List.length_append, List.length_cons]
    omega
  · rw [hleft, Cursor.binaryTail, hpeek]
    simp only [hk]
    rw [if_neg (by omega), hright]
    rfl
  · rw [he, unplaced_apply hsame hsame']

namespace ReadAt

theorem of_chainAt (hn : 1 ≤ n) (hn' : n ≤ 10) (hpos : 0 < ks.length) (h : ChainAt n ks e) : ReadAt n ks e where
  primary := fun h => by omega
  unary := fun h => by omega
  chain := fun _ => h
  expr := h.exprAt hn hpos

theorem of_unaryAt (hpos : 0 < ks.length) (h : UnaryAt ks e) : ReadAt 11 ks e where
  primary := fun h => by omega
  unary := fun _ => h
  chain := fun _ => h.chainAt hpos
  expr := (h.chainAt (n := 1) hpos).exprAt le_rfl hpos

theorem of_primaryAt (hne : ks ≠ []) (hhead : ∀ k ∈ ks.head?, unary? k = none) (h : PrimaryAt ks e) :
    ReadAt 12 ks e where
  primary := fun _ => h
  unary := fun _ => h.unaryAt hne hhead
  chain := fun _ => (h.unaryAt hne hhead).chainAt (List.length_pos_iff.mpr hne)
  expr := (of_unaryAt (List.length_pos_iff.mpr hne) (h.unaryAt hne hhead)).expr

theorem tighter (h : ReadAt (n + 1) ks e) : ReadAt n ks e where
  primary := fun hn => h.primary (by omega)
  unary := fun hn => h.unary (by omega)
  chain := fun _ d c c' least hmove hd hleast hnext =>
    h.chain (by omega) d c c' least hmove hd (by omega) (hnext.mono (Nat.le_succ n))
  expr := h.expr

end ReadAt

/-- A literal or a name is one token. -/
theorem primaryAt_atom {k : Kind} (h : ∀ p, ∃ e', atom? p k = some e' ∧ e'.unplaced = e.unplaced) :
    PrimaryAt [k] e := by
  intro d c c' hmove hd
  obtain ⟨d, rfl⟩ : ∃ d', d = d' + 1 := ⟨d - 1, by simp at hd; omega⟩
  obtain ⟨hpeek, hrest⟩ := hmove.cons_inv
  obtain rfl := hrest.nil_inv
  obtain ⟨e', hatom, hsame⟩ := h c.span
  refine ⟨e', ?_, hsame⟩
  rw [Cursor.primary, hpeek, hatom]

theorem primaryAt_parens (h : ExprAt ks e) : PrimaryAt (.lParen :: (ks ++ [.rParen])) e := by
  intro d c c' hmove hd
  rw [List.length_cons, List.length_append, List.length_singleton] at hd
  obtain _ | d := d
  · omega
  obtain ⟨hpeek, hmove⟩ := hmove.cons_inv
  obtain ⟨c₁, hmove₁, hclose, hrest⟩ := hmove.split_cons
  obtain rfl := hrest.nil_inv
  rw [Cursor.primary, hpeek]
  dsimp only [atom?]
  rw [if_pos rfl]
  exact (h d c.advance c₁ hmove₁ (by omega) (closed_of_peek hclose (by decide))).bind fun e' hsame =>
    .expect hclose ⟨e', rfl, hsame⟩

theorem unaryAt_unary {k : Kind} {op : UnaryOp} {p : Span} (hk : unary? k = some op) (h : UnaryAt ks e) :
    UnaryAt (k :: ks) (.unary p op e) := by
  intro d c c' hmove hd
  rw [List.length_cons] at hd
  obtain _ | d := d
  · omega
  obtain ⟨hpeek, hmove⟩ := hmove.cons_inv
  rw [Cursor.unary, hpeek, hk]
  exact (h d c.advance c' hmove (by omega)).bind fun e' hsame =>
    ⟨_, rfl, by rw [Expr.unplaced, Expr.unplaced, hsame]⟩

theorem exprAt_ternary {ks₁ ks₂ ks₃ : List Kind} {p : Span} {a t f : Expr} (ha : ReadAt 1 ks₁ a)
    (ht : ExprAt ks₂ t) (hf : ExprAt ks₃ f) (hpos : 0 < ks₁.length) :
    ExprAt (ks₁ ++ .question :: (ks₂ ++ .colon :: ks₃)) (.ternary p a t f) := by
  intro d c c' hmove hd hclosed
  simp only [List.length_append, List.length_cons] at hd
  obtain _ | d := d
  · omega
  obtain ⟨c₁, hmove₁, hquestion, hmove⟩ := hmove.split_cons
  obtain ⟨c₂, hmove₂, hcolon, hmove₃⟩ := hmove.split_cons
  have hnone : infix? c₁.peek = none := by rw [hquestion]; rfl
  have hnext : ∀ n, c₁.NextWithin n := fun n op m hm => by
    rw [hnone] at hm
    cases hm
  obtain ⟨d₁, a', hd₁, hchain, hsame₁⟩ :=
    ha.chain le_rfl d c c₁ 1 hmove₁ (by omega) le_rfl (hnext 1)
  rw [binaryTail_stops 0 (by omega) (hnext 0) a'] at hchain
  rw [Cursor.expr, hchain]
  show Yields _ (if c₁.peek = .question then _ else _) _ _
  rw [if_pos hquestion]
  exact (ht d c₁.advance c₂ hmove₂ (by omega) (closed_of_peek hcolon (by decide))).bind fun t' hsame₂ =>
    .expect hcolon <| (hf d c₂.advance c' hmove₃ (by omega) hclosed).bind fun f' hsame₃ =>
      ⟨_, rfl, by simp only [Expr.unplaced, hsame₁, hsame₂, hsame₃]⟩

end Expressions

theorem readAt_of_spells {n : Nat} {ks : List Kind} {e : Expr} (h : SpellsExpr n ks e) : ReadAt n ks e := by
  induction h with
  | number | true_ | false_
  | name => exact .of_primaryAt (by simp) (by simp [unary?]) (primaryAt_atom fun p => ⟨_, rfl, rfl⟩)
  | parens _ ih => exact .of_primaryAt (by simp) (by simp [unary?]) (primaryAt_parens ih.expr)
  | unary hk _ ih => exact .of_unaryAt (by simp) (unaryAt_unary (unary?_of_mem hk) (ih.unary le_rfl))
  | binary hk ha hb iha ihb =>
    have hop := infix?_of_mem hk
    have hlevel := infix?_level hop
    exact .of_chainAt hlevel.1 hlevel.2 (by simp)
      ((iha.chain hlevel.1).operator hop (ihb.chain (by omega)) rfl hb.length_pos)
  | and ha hb iha ihb =>
    exact .of_chainAt (by omega) (by omega) (by simp)
      ((iha.chain (by omega)).operator (p := .start) (show infix? .ampAmp = some (.logicalAnd, 2) from rfl)
        (ihb.chain (by omega)) rfl hb.length_pos)
  | or ha hb iha ihb =>
    exact .of_chainAt (by omega) (by omega) (by simp)
      ((iha.chain (by omega)).operator (p := .start) (show infix? .pipePipe = some (.logicalOr, 1) from rfl)
        (ihb.chain (by omega)) rfl hb.length_pos)
  | ternary ha _ _ iha iht ihf =>
    exact ⟨fun h => by omega, fun h => by omega, fun h => by omega,
      exprAt_ternary iha iht.expr ihf.expr ha.length_pos⟩
  | tighter _ ih => exact ih.tighter

/-! ### Simple statements -/

section Simple

variable {d : Nat} {c c' : Cursor} {ks ks' : List Kind}

theorem expr_yields {e : Expr} (h : SpellsExpr 0 ks e) (hmove : Moves c ks c') (hd : 4 * ks.length ≤ d)
    (hclosed : c'.Closed) : Yields Expr.unplaced (c.expr d) e c' :=
  (readAt_of_spells h).expr d c c' hmove hd hclosed

theorem exprStmt_yields {p : Span} {e : Expr} (h : SpellsExpr 0 ks e) (hmove : Moves c ks c')
    (hd : 4 * ks.length ≤ d) (hclosed : c'.Closed) :
    Yields Simple.unplaced (c.exprStmt d) (.expr p e) c' := by
  rw [Cursor.exprStmt]
  exact (expr_yields h hmove hd hclosed).bind fun e' hsame => ⟨_, rfl, by simp only [Simple.unplaced, hsame]⟩

theorem condition_yields {e : Expr} (h : SpellsExpr 0 ks e) (hmove : Moves c (.lParen :: (ks ++ .rParen :: ks')) c')
    (hd : 4 * ks.length ≤ d) :
    ∃ c₁, Yields Expr.unplaced (c.condition d) e c₁ ∧ Moves c₁ ks' c' := by
  obtain ⟨hopen, hmove⟩ := hmove.cons_inv
  obtain ⟨c₁, hmove₁, hclose, hrest⟩ := hmove.split_cons
  refine ⟨c₁.advance, ?_, hrest⟩
  rw [Cursor.condition]
  exact .expect hopen <| (expr_yields h hmove₁ hd (closed_of_peek hclose (by decide))).bind fun e' hsame =>
    .expect hclose ⟨e', rfl, hsame⟩

/-- What follows a simple statement: the end of a statement or of a loop's head. -/
def Cursor.EndsSimple (c : Cursor) : Prop := c.peek = .semi ∨ c.peek = .rParen

theorem Cursor.EndsSimple.closed (h : c.EndsSimple) : c.Closed := by
  rcases h with h | h
  · exact closed_of_peek h (by decide)
  · exact closed_of_peek h (by decide)

/-- The token behind a name that begins an expression does not assign or count. -/
theorem second_of_expr {name : String} {e : Expr} (h : SpellsExpr 0 (.ident name :: ks) e)
    (hmove : Moves c (.ident name :: ks) c') (hend : c'.EndsSimple) :
    assignment? c.peekSecond = none ∧ count? c.peekSecond = none := by
  obtain ⟨-, hmove⟩ := hmove.cons_inv
  show assignment? c.advance.peek = none ∧ count? c.advance.peek = none
  by_cases hks : ks = []
  · subst hks
    obtain rfl := hmove.nil_inv
    rcases hend with hend | hend
    · rw [hend]
      exact ⟨rfl, rfl⟩
    · rw [hend]
      exact ⟨rfl, rfl⟩
  · have hmem := List.mem_cons_of_mem (Kind.ident name) (hmove.peek_mem hks)
    exact (kinds_of_not_outside (h.not_outside _ hmem)).2

theorem simple_yields {s : Simple} (h : SpellsSimple ks s) (hmove : Moves c ks c') (hd : 4 * ks.length ≤ d)
    (hend : c'.EndsSimple) : Yields Simple.unplaced (c.simple d) s c' := by
  cases h with
  | @declare p ty name =>
    obtain ⟨hty, hmove⟩ := hmove.cons_inv
    obtain ⟨hname, hmove⟩ := hmove.cons_inv
    obtain rfl := hmove.nil_inv
    refine ⟨.declare c.span ty name none, ?_, rfl⟩
    have hassign : c.advance.advance.peek ≠ .assign := by
      rcases hend with hend | hend <;> rw [hend] <;> decide
    rw [Cursor.simple, hty, type?_typeToken]
    show (c.advance.expectName >>= _) = _
    rw [Cursor.expectName, hname]
    exact if_neg hassign
  | @init p ty name ks e he =>
    obtain ⟨hty, hmove⟩ := hmove.cons_inv
    obtain ⟨hname, hmove⟩ := hmove.cons_inv
    obtain ⟨hassign, hmove⟩ := hmove.cons_inv
    simp only [List.length_cons] at hd
    obtain ⟨e', he', hsame⟩ := expr_yields (d := d) he hmove (by omega) hend.closed
    refine ⟨.declare c.span ty name (some e'), ?_, by simp only [Simple.unplaced, Option.map_some, hsame]⟩
    rw [Cursor.simple, hty, type?_typeToken]
    show (c.advance.expectName >>= _) = _
    rw [Cursor.expectName, hname]
    show (if c.advance.advance.peek = .assign then _ else _) = _
    rw [if_pos hassign, he']
    rfl
  | @assign p name k op ks e hk he =>
    obtain ⟨hname, hmove⟩ := hmove.cons_inv
    obtain ⟨hassign, hmove⟩ := hmove.cons_inv
    simp only [List.length_cons] at hd
    obtain ⟨e', he', hsame⟩ := expr_yields (d := d) he hmove (by omega) hend.closed
    refine ⟨.assign c.span name op e', ?_, by simp only [Simple.unplaced, hsame]⟩
    have hop : assignment? c.peekSecond = some op := by
      rw [← assignment?_of_mem hk, ← hassign]
      rfl
    rw [Cursor.simple, hname]
    dsimp only [type?]
    rw [hop, he']
    rfl
  | @count p name k direction hk =>
    obtain ⟨hname, hmove⟩ := hmove.cons_inv
    obtain ⟨hcount, hmove⟩ := hmove.cons_inv
    obtain rfl := hmove.nil_inv
    refine ⟨.count c.span name direction, ?_, rfl⟩
    obtain ⟨hdirection, hnone⟩ := count?_of_mem hk
    have hsecond : c.peekSecond = k := hcount
    rw [Cursor.simple, hname]
    dsimp only [type?]
    rw [hsecond, hnone, hdirection]
  | @expr p ks e he =>
    have hhead := he.not_outside _ (hmove.peek_mem he.ne_nil)
    have hty := (kinds_of_not_outside hhead).1
    have hexpr := exprStmt_yields (p := p) he hmove hd hend.closed
    rw [Cursor.simple, hty]
    dsimp only
    split
    · next name hname =>
      obtain ⟨k, rest, rfl⟩ := List.exists_cons_of_ne_nil he.ne_nil
      obtain rfl : k = .ident name := hmove.cons_inv.1.symm.trans hname
      obtain ⟨hassign, hcount⟩ := second_of_expr he hmove hend
      rw [hassign, hcount]
      exact hexpr
    · exact hexpr

/-- The kinds that begin a statement which is not simple, end a block or follow a
statement. -/
def outsideSimple : List Kind :=
  [.lBrace, .rBrace, .if_, .else_, .while_, .for_, .break_, .continue_, .return_, .semi, .rParen, .eof]

theorem SpellsSimple.ne_nil {s : Simple} (h : SpellsSimple ks s) : ks ≠ [] := by
  cases h with
  | declare | init | assign | count => simp
  | expr he => exact he.ne_nil

theorem SpellsSimple.head_not_outside {s : Simple} (h : SpellsSimple ks s) :
    ∀ k ∈ ks.head?, k ∉ outsideSimple := by
  cases h with
  | @declare p ty name => cases ty <;> simp [typeToken, outsideSimple]
  | @init p ty name ks e => cases ty <;> simp [typeToken, outsideSimple]
  | assign | count => simp [outsideSimple]
  | expr he =>
    intro k hk
    have hall : ∀ k ∈ outsideSimple, k ∈ outsideExpr ∨ k = .rParen := by decide
    intro hout
    rcases hall k hout with hout | hparen
    · exact he.not_outside k (List.mem_of_mem_head? hk) hout
    · exact he.head_ne_rParen k hk hparen

theorem simpleBefore_yields {stop : Kind} {s : Option Simple} (h : SpellsOptional ks s) (hmove : Moves c ks c')
    (hd : 4 * ks.length ≤ d) (hend : c'.EndsSimple) (hstop : c'.peek = stop) :
    Yields (Option.map Simple.unplaced) (c.simpleBefore d stop) s c' := by
  cases h with
  | none =>
    obtain rfl := hmove.nil_inv
    exact ⟨none, if_pos hstop, rfl⟩
  | some hs =>
    obtain ⟨s', hs', hsame⟩ := simple_yields hs hmove hd hend
    refine ⟨some s', ?_, congrArg some hsame⟩
    have hpeek : c.peek ≠ stop := by
      rintro rfl
      obtain ⟨k, rest, rfl⟩ := List.exists_cons_of_ne_nil hs.ne_nil
      have houtside := hs.head_not_outside k rfl
      rw [← hmove.cons_inv.1, ← hstop] at houtside
      rcases hend with hend | hend <;> rw [hend] at houtside <;> exact houtside (by decide)
    rw [Cursor.simpleBefore, if_neg hpeek, hs']
    rfl

theorem forStep_yields {s : Option Simple} (h : SpellsOptional ks s) (hmove : Moves c ks c')
    (hd : 4 * ks.length ≤ d) (hend : c'.peek = .rParen) (hdecl : ∀ a ∈ s, a.isDeclaration = false) :
    Yields (Option.map Simple.unplaced) (c.forStep d) s c' := by
  obtain ⟨s', hs', hsame⟩ := simpleBefore_yields h hmove hd (.inr hend) hend
  refine ⟨s', ?_, hsame⟩
  rw [Cursor.forStep, hs']
  cases s' with
  | none => rfl
  | some a' =>
    cases s with
    | none => cases hsame
    | some a =>
      have ha : a'.isDeclaration = false := by
        rw [← isDeclaration_unplaced, Option.some.inj hsame, isDeclaration_unplaced]
        exact hdecl a rfl
      show (if a'.isDeclaration = true then _ else _) = _
      rw [if_neg (by simp [ha])]
      rfl

end Simple

/-! ### Statements -/

section Statements

variable {d : Nat} {c c' : Cursor} {ks ks' : List Kind}

/-- No statement begins with a kind that closes a block or follows a statement. -/
theorem SpellsStmt.head {s : Stmt} (h : SpellsStmt ks s) :
    ks ≠ [] ∧ ∀ k ∈ ks.head?, k ≠ .else_ ∧ k ≠ .rBrace ∧ k ≠ .eof := by
  cases h with
  | simple hs =>
    refine ⟨by simp, fun k hk => ?_⟩
    rw [List.head?_append_of_ne_nil _ hs.ne_nil] at hk
    have houtside := hs.head_not_outside k hk
    refine ⟨?_, ?_, ?_⟩ <;> rintro rfl <;> exact houtside (by decide)
  | block | ifThen | ifElse | while_ | for_ | break_ | continue_ | return_ => simp

/-- No `else` stands behind a statement of a block. -/
theorem SpellsStmts.next_ne_else {body : List Stmt} (h : SpellsStmts ks body)
    (hmove : Moves c (ks ++ [.rBrace]) c') : c.peek ≠ .else_ := by
  cases h with
  | nil =>
    rw [hmove.cons_inv.1]
    decide
  | cons hs =>
    obtain ⟨hne, hhead⟩ := hs.head
    obtain ⟨k, others, rfl⟩ := List.exists_cons_of_ne_nil hne
    rw [hmove.cons_inv.1]
    exact (hhead k rfl).1

theorem stmt_of_simple (d : Nat) (h : c.peek ∉ outsideSimple) : c.stmt (d + 1) = (do
    let (s, c) ← c.simple d
    let c ← c.expect .semi
    return (.simple s, c)) := by
  rw [Cursor.stmt]
  split
  case h_8 => rfl
  all_goals
    next hpeek => exact absurd (by rw [hpeek]; decide) h

theorem block_yields {body : List Stmt} (hopen : c.peek = .lBrace)
    (h : Yields unplacedAll (c.advance.stmts d) body c') : Yields unplacedAll (c.block (d + 1)) body c' := by
  rwa [Cursor.block, expect_of_peek hopen]

end Statements

mutual

theorem stmt_yields : ∀ {ks : List Kind} {s : Stmt}, SpellsStmt ks s → ∀ {d : Nat} {c c' : Cursor},
    Moves c ks c' → 4 * ks.length ≤ d → (s.endsOpen = true → c'.peek ≠ .else_) →
    Yields Stmt.unplaced (c.stmt d) s c'
  | _, _, @SpellsStmt.simple ks a ha, d, c, c', hmove, hd, _ => by
    rw [List.length_append, List.length_singleton] at hd
    obtain _ | d := d
    · omega
    obtain ⟨c₁, hmove₁, hsemi, hrest⟩ := hmove.split_cons
    obtain rfl := hrest.nil_inv
    have houtside := ha.head_not_outside
    obtain ⟨k, rest, rfl⟩ := List.exists_cons_of_ne_nil ha.ne_nil
    rw [stmt_of_simple d (by rw [hmove₁.cons_inv.1]; exact houtside k rfl)]
    exact (simple_yields ha hmove₁ (by omega) (.inl hsemi)).bind fun a' hsame =>
      .expect hsemi ⟨_, rfl, by rw [Stmt.unplaced, Stmt.unplaced, hsame]⟩
  | _, _, @SpellsStmt.block _ ks body hbody, d, c, c', hmove, hd, _ => by
    obtain ⟨d, rfl, hd, hpeek, hmove⟩ := hmove.enter hd
    rw [List.length_append, List.length_singleton] at hd
    obtain _ | d := d
    · omega
    rw [Cursor.stmt, hpeek]
    exact (block_yields hpeek (stmts_yields hbody hmove (by omega))).bind fun body' hsame =>
      ⟨_, rfl, by rw [Stmt.unplaced, Stmt.unplaced, hsame]⟩
  | _, _, @SpellsStmt.ifThen _ ks₁ ks₂ e t he ht, d, c, c', hmove, hd, hopen => by
    obtain ⟨d, rfl, hd, hpeek, hmove⟩ := hmove.enter hd
    simp only [List.length_append, List.length_cons] at hd
    obtain ⟨c₁, hcondition, hmove₁⟩ := condition_yields (d := d) he hmove (by omega)
    rw [Cursor.stmt, hpeek]
    exact hcondition.bind fun e' hsame₁ =>
      (stmt_yields ht hmove₁ (by omega) fun _ => hopen rfl).bind fun t' hsame₂ =>
        ⟨_, if_neg (hopen rfl), by simp only [Stmt.unplaced, hsame₁, hsame₂]⟩
  | _, _, @SpellsStmt.ifElse _ ks₁ ks₂ ks₃ e t f he ht hclosed hf, d, c, c', hmove, hd, hopen => by
    obtain ⟨d, rfl, hd, hpeek, hmove⟩ := hmove.enter hd
    simp only [List.length_append, List.length_cons] at hd
    obtain ⟨c₁, hcondition, hmove₁⟩ := condition_yields (d := d) he hmove (by omega)
    obtain ⟨c₂, hmove₂, helse, hmove₃⟩ := hmove₁.split_cons
    rw [Cursor.stmt, hpeek]
    refine hcondition.bind fun e' hsame₁ =>
      (stmt_yields ht hmove₂ (by omega) fun h => by simp [hclosed] at h).bind fun t' hsame₂ => ?_
    show Yields _ (if c₂.peek = .else_ then _ else _) _ _
    rw [if_pos helse]
    exact (stmt_yields hf hmove₃ (by omega) hopen).bind fun f' hsame₃ =>
      ⟨_, rfl, by simp only [Stmt.unplaced, hsame₁, hsame₂, hsame₃]⟩
  | _, _, @SpellsStmt.while_ _ ks₁ ks₂ e b he hb, d, c, c', hmove, hd, hopen => by
    obtain ⟨d, rfl, hd, hpeek, hmove⟩ := hmove.enter hd
    simp only [List.length_append, List.length_cons] at hd
    obtain ⟨c₁, hcondition, hmove₁⟩ := condition_yields (d := d) he hmove (by omega)
    rw [Cursor.stmt, hpeek]
    exact hcondition.bind fun e' hsame₁ => (stmt_yields hb hmove₁ (by omega) hopen).bind fun b' hsame₂ =>
      ⟨_, rfl, by simp only [Stmt.unplaced, hsame₁, hsame₂]⟩
  | _, _, @SpellsStmt.for_ _ ks₁ ks₂ ks₃ ks₄ init e step b hinit he hstep hdecl hb, d, c, c', hmove, hd, hopen => by
    obtain ⟨d, rfl, hd, hpeek, hmove⟩ := hmove.enter hd
    simp only [List.length_append, List.length_cons] at hd
    obtain ⟨hparen, hmove⟩ := hmove.cons_inv
    obtain ⟨c₁, hmove₁, hsemi, hmove⟩ := hmove.split_cons
    obtain ⟨c₂, hmove₂, hsemi', hmove⟩ := hmove.split_cons
    obtain ⟨c₃, hmove₃, hclose, hmove₄⟩ := hmove.split_cons
    have hinit' := simpleBefore_yields (d := d) hinit hmove₁ (by omega) (.inl hsemi) hsemi
    have he' := expr_yields (d := d) he hmove₂ (by omega) (closed_of_peek hsemi' (by decide))
    have hstep' := forStep_yields (d := d) hstep hmove₃ (by omega) hclose hdecl
    have hb' := stmt_yields hb (d := d) hmove₄ (by omega) hopen
    rw [Cursor.stmt, hpeek]
    exact .expect hparen <| hinit'.bind fun init' hsame₁ => .expect hsemi <| he'.bind fun e' hsame₂ =>
      .expect hsemi' <| hstep'.bind fun step' hsame₃ => .expect hclose <| hb'.bind fun b' hsame₄ =>
        ⟨_, rfl, by simp only [Stmt.unplaced, hsame₁, hsame₂, hsame₃, hsame₄]⟩
  | _, _, .break_, d, c, c', hmove, hd, _ | _, _, .continue_, d, c, c', hmove, hd, _ => by
    obtain ⟨d, rfl, hd, hpeek, hmove⟩ := hmove.enter hd
    obtain ⟨hsemi, hmove⟩ := hmove.cons_inv
    obtain rfl := hmove.nil_inv
    rw [Cursor.stmt, hpeek]
    exact .expect hsemi ⟨_, rfl, rfl⟩
  | _, _, @SpellsStmt.return_ _ ks e he, d, c, c', hmove, hd, _ => by
    obtain ⟨d, rfl, hd, hpeek, hmove⟩ := hmove.enter hd
    simp only [List.length_append, List.length_cons] at hd
    obtain ⟨c₁, hmove₁, hsemi, hrest⟩ := hmove.split_cons
    obtain rfl := hrest.nil_inv
    rw [Cursor.stmt, hpeek]
    exact (expr_yields he hmove₁ (by omega) (closed_of_peek hsemi (by decide))).bind fun e' hsame =>
      .expect hsemi ⟨_, rfl, by rw [Stmt.unplaced, Stmt.unplaced, hsame]⟩

theorem stmts_yields : ∀ {ks : List Kind} {body : List Stmt}, SpellsStmts ks body → ∀ {d : Nat} {c c' : Cursor},
    Moves c (ks ++ [.rBrace]) c' → 4 * ks.length + 1 ≤ d → Yields unplacedAll (c.stmts d) body c'
  | _, _, .nil, d, c, c', hmove, hd => by
    obtain _ | d := d
    · omega
    obtain ⟨hclose, hmove⟩ := hmove.cons_inv
    obtain rfl := hmove.nil_inv
    exact ⟨[], if_pos hclose, rfl⟩
  | _, _, @SpellsStmts.cons ks ks' s rest hs hrest, d, c, c', hmove, hd => by
    rw [List.length_append] at hd
    rw [List.append_assoc] at hmove
    obtain ⟨hne, hhead⟩ := hs.head
    have hpos := List.length_pos_iff.mpr hne
    obtain _ | d := d
    · omega
    obtain ⟨c₁, hmove₁, hmove₂⟩ := hmove.split
    obtain ⟨k, others, rfl⟩ := List.exists_cons_of_ne_nil hne
    obtain ⟨-, hbrace, heof⟩ := hhead k rfl
    rw [← hmove₁.cons_inv.1] at hbrace heof
    rw [Cursor.stmts, if_neg hbrace, if_neg heof]
    exact (stmt_yields hs hmove₁ (by omega) fun _ => hrest.next_ne_else hmove₂).bind fun s' hsame₁ =>
      (stmts_yields hrest hmove₂ (by omega)).bind fun rest' hsame₂ =>
        ⟨_, rfl, by rw [unplacedAll, unplacedAll, hsame₁, hsame₂]⟩

end

/-! ### Programs -/

theorem func_yields {d : Nat} {ks : List Kind} {f : Func} (h : SpellsFunc ks f)
    (hmove : Moves c ks c') (hd : 4 * ks.length ≤ d) : Yields Func.unplaced (c.func d) f c' := by
  cases h with
  | @mk p ty name ks body hbody =>
    obtain ⟨d, rfl, hd, hty, hmove⟩ := hmove.enter hd
    simp only [List.length_append, List.length_cons] at hd
    obtain ⟨hname, hmove⟩ := hmove.cons_inv
    obtain ⟨hopen, hmove⟩ := hmove.cons_inv
    obtain ⟨hclose, hmove⟩ := hmove.cons_inv
    obtain ⟨hbrace, hmove⟩ := hmove.cons_inv
    rw [Cursor.func, hty, type?_typeToken]
    show Yields _ (c.advance.expectName >>= _) _ _
    rw [Cursor.expectName, hname]
    exact .expect hopen <| .expect hclose <|
      (block_yields hbrace (stmts_yields hbody hmove (by omega))).bind fun body' hsame =>
        ⟨_, rfl, by simp only [Func.unplaced, hsame]⟩

theorem funcs_yields : ∀ {ks : List Kind} {fs : List Func}, SpellsFuncs ks fs → ∀ {d : Nat} {c c' : Cursor},
    Moves c ks c' → 4 * ks.length + 1 ≤ d → c'.peek = .eof →
    Yields (List.map Func.unplaced) (c.funcs d) fs c' := by
  intro ks fs h
  induction h with
  | nil =>
    intro d c c' hmove hd heof
    obtain _ | d := d
    · omega
    obtain rfl := hmove.nil_inv
    exact ⟨[], if_pos heof, rfl⟩
  | @cons ks ks' f rest hf hrest ih =>
    intro d c c' hmove hd heof
    rw [List.length_append] at hd
    obtain _ | d := d
    · omega
    obtain ⟨c₁, hmove₁, hmove₂⟩ := hmove.split
    obtain ⟨hpos, hpeek⟩ : 0 < ks.length ∧ c.peek ≠ .eof := by
      obtain ⟨hbody⟩ := hf
      refine ⟨by simp, ?_⟩
      rw [hmove₁.cons_inv.1]
      next ty _ _ _ => cases ty <;> decide
    rw [Cursor.funcs, if_neg hpeek]
    exact (func_yields hf hmove₁ (by omega)).bind fun f' hsame₁ => (ih hmove₂ (by omega) heof).bind fun rest' hsame₂ =>
      ⟨_, rfl, by rw [List.map_cons, List.map_cons, hsame₁, hsame₂]⟩

section Programs

variable {tokens : List Token} {stop : Token}

theorem moves_tokens (h : ∀ t ∈ tokens, t.kind ≠ .eof) (rest : List Token) (last : Token) :
    Moves ⟨tokens ++ rest, last⟩ (tokens.map Token.kind) ⟨rest, last⟩ := by
  induction tokens with
  | nil => exact .done
  | cons t tokens ih =>
    rw [List.forall_mem_cons] at h
    exact .token h.1 (ih h.2)

/-- Only the end mark stops a cursor that has passed other tokens. -/
theorem eq_of_moves (hstop : stop.kind = .eof) : ∀ {tokens : List Token} {ks : List Kind} {c : Cursor},
    (∀ t ∈ tokens, t.kind ≠ .eof) → Moves ⟨tokens ++ [stop], stop⟩ ks c → c.peek = .eof →
    ks = tokens.map Token.kind
  | [], _, _, _, .done, _ => rfl
  | [], _, _, _, .token ht _, _ => absurd hstop ht
  | t :: tokens, _, _, h, .done, heof => absurd heof (h t List.mem_cons_self)
  | t :: tokens, _, _, h, .token _ hmove, heof => by
    rw [List.map_cons, eq_of_moves hstop (fun t ht => h t (List.mem_cons_of_mem _ ht)) hmove heof]

theorem ofTokens_concat (tokens : List Token) (stop : Token) :
    Cursor.ofTokens (tokens ++ [stop]) = ⟨tokens ++ [stop], stop⟩ := by
  simp [Cursor.ofTokens]

theorem spells_of_parse (h : ∀ t ∈ tokens, t.kind ≠ .eof) (hstop : stop.kind = .eof) {program : Program}
    (hparse : parse (tokens ++ [stop]) = .ok program) : SpellsProgram (tokens.map Token.kind) program := by
  obtain ⟨⟨fs, c⟩, hfs, rfl⟩ := bind_pure_inj hparse
  rw [ofTokens_concat] at hfs
  obtain ⟨⟨ks, hmove, hks⟩, heof⟩ := funcs_spells _ hstop hfs
  rwa [eq_of_moves hstop h hmove heof] at hks

theorem parse_of_spells (h : ∀ t ∈ tokens, t.kind ≠ .eof) (hstop : stop.kind = .eof) {program : Program}
    (hspells : SpellsProgram (tokens.map Token.kind) program) :
    ∃ read, parse (tokens ++ [stop]) = .ok read ∧ read.unplaced = program.unplaced := by
  have hdepth : 4 * (tokens.map Token.kind).length + 1 ≤ depthFor (tokens ++ [stop]) := by
    simp only [depthFor, List.length_map, List.length_append, List.length_singleton]
    omega
  obtain ⟨fs, hfs, hsame⟩ := funcs_yields hspells (moves_tokens h [stop] stop) hdepth hstop
  refine ⟨⟨fs⟩, ?_, congrArg Program.mk hsame⟩
  rw [parse, ofTokens_concat, hfs]
  rfl

end Programs

/-- **The reader accepts exactly the grammar.** A list of tokens with the end mark
behind it is read as a program, up to places, if and only if the tokens spell the
program; and no two programs that differ in more than places have one spelling. -/
theorem parse_ok_iff_spells (tokens : List Token) (h : ∀ t ∈ tokens, t.kind ≠ .eof) (stop : Token)
    (hstop : stop.kind = .eof) (program : Program) :
    ((∃ read, parse (tokens ++ [stop]) = .ok read ∧ read.unplaced = program.unplaced) ↔
      SpellsProgram (tokens.map Token.kind) program) ∧
    ∀ other, SpellsProgram (tokens.map Token.kind) program → SpellsProgram (tokens.map Token.kind) other →
      other.unplaced = program.unplaced := by
  refine ⟨⟨?_, parse_of_spells h hstop⟩, fun other hprogram hother => ?_⟩
  · rintro ⟨read, hread, hsame⟩
    exact (spells_of_parse h hstop hread).of_unplaced (Program.mk.inj hsame).symm
  · obtain ⟨read, hread, hsame⟩ := parse_of_spells h hstop hprogram
    obtain ⟨read', hread', hsame'⟩ := parse_of_spells h hstop hother
    obtain rfl := Except.ok.inj (hread.symm.trans hread')
    rw [← hsame, ← hsame']

/-- The tokens of `int main() { if (a) if (b) x = 1; else x -= c ? 1 : 2 - 3 - 4 * 5 << 6; }`,
all at one place. -/
def nestedIf : List Token :=
  [.int, .ident "main", .lParen, .rParen, .lBrace, .if_, .lParen, .ident "a", .rParen, .if_, .lParen, .ident "b",
    .rParen, .ident "x", .assign, .number 1, .semi, .else_, .ident "x", .minusAssign, .ident "c", .question,
    .number 1, .colon, .number 2, .minus, .number 3, .minus, .number 4, .star, .number 5, .shl, .number 6, .semi,
    .rBrace].map fun k => ⟨k, .start⟩

/-- The tree of `nestedIf`: the `else` belongs to the inner `if`, the subtractions
group to the left, and the product binds tighter than they do. -/
def nestedIfTree : Program :=
  let p := Span.start
  let differences : Expr := .binary p .sub (.binary p .sub (.int p 2) (.int p 3)) (.binary p .mul (.int p 4) (.int p 5))
  let value : Expr := .ternary p (.var p "c") (.int p 1) (.binary p .shl differences (.int p 6))
  ⟨[⟨p, .int, "main",
    [.ifElse p (.var p "a")
      (.ifElse p (.var p "b") (.simple (.assign p "x" none (.int p 1)))
        (some (.simple (.assign p "x" (some .sub) value)))) none]⟩]⟩

theorem nestedIf_spells : parse (nestedIf ++ [⟨.eof, .start⟩]) = .ok nestedIfTree ∧
    SpellsProgram (nestedIf.map Token.kind) nestedIfTree := by
  have hread : parse (nestedIf ++ [⟨.eof, .start⟩]) = .ok nestedIfTree := by rfl
  exact ⟨hread, (parse_ok_iff_spells nestedIf (by decide) ⟨.eof, .start⟩ rfl nestedIfTree).1.mp ⟨_, hread, rfl⟩⟩

end Chordal.Syntax
