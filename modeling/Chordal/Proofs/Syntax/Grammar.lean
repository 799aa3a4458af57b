/-
# The grammar of programs

Which token kinds, one after another, spell which tree. The grammar says nothing
about the places of tokens: nodes may carry any place, so one list of kinds
spells all trees that differ in places only, and `unplaced` forgets places to say
so.

Expressions come in levels. A level holds everything that binds at least as
tight, and the operators of a level group to the left:

* level 0: a conditional `c ? t : e`, which groups to the right;
* levels 1 to 10: chains of binary operators, from `||` to `* / %`;
* level 11: an operand behind unary operators;
* level 12: a literal, a name, an expression in parentheses.

An `else` belongs to the nearest `if` that is still open. As a rule of the
grammar: the first branch of an `if` with an `else` does not end in an `if`
without one (`Stmt.endsOpen`).

Key definitions: `SpellsExpr`, `SpellsSimple`, `SpellsStmt`, `SpellsProgram`,
`Program.unplaced`.
Key theorems: `SpellsExpr.loosen`, `SpellsExpr.not_outside`, `SpellsFuncs.of_unplaced`.
-/
import Mathlib
import Chordal.Token
import Chordal.Syntax

namespace Chordal.Syntax

open Token (Kind)

/-! ### Tokens of the grammar -/

/-- The word a type is written with. -/
def typeToken : Ty → Kind
  | .int => .int
  | .bool => .bool

/-- The operators that stand before an operand. -/
def unaryTokens : List (Kind × UnaryOp) :=
  [(.minus, .neg), (.tilde, .bitNot), (.bang, .logicalNot)]

/-- The operators of a level that have a node of their own. The operators of
levels one and two, `||` and `&&`, have none. -/
def binaryTokens : (level : Nat) → List (Kind × BinaryOp)
  | 3 => [(.pipe, .or)]
  | 4 => [(.caret, .xor)]
  | 5 => [(.amp, .and)]
  | 6 => [(.eqEq, .eq), (.ne, .ne)]
  | 7 => [(.lt, .lt), (.le, .le), (.gt, .gt), (.ge, .ge)]
  | 8 => [(.shl, .shl), (.shr, .shr)]
  | 9 => [(.plus, .add), (.minus, .sub)]
  | 10 => [(.star, .mul), (.slash, .div), (.percent, .mod)]
  | _ => []

/-- The eleven assignments, each with the operator it applies first. -/
def assignTokens : List (Kind × Option BinaryOp) :=
  [(.assign, none), (.plusAssign, some .add), (.minusAssign, some .sub),
    (.starAssign, some .mul), (.slashAssign, some .div), (.percentAssign, some .mod),
    (.shlAssign, some .shl), (.shrAssign, some .shr), (.ampAssign, some .and),
    (.pipeAssign, some .or), (.caretAssign, some .xor)]

/-- The tokens that count a variable up or down. -/
def countTokens : List (Kind × Count) := [(.plusPlus, .up), (.minusMinus, .down)]

/-! ### Trees and their spellings -/

/-- The kinds spell the expression at a level. -/
inductive SpellsExpr : (level : Nat) → List Kind → Expr → Prop
  | number {p value} : SpellsExpr 12 [.number value] (.int p value)
  | true_ {p} : SpellsExpr 12 [.true_] (.bool p true)
  | false_ {p} : SpellsExpr 12 [.false_] (.bool p false)
  | name {p name} : SpellsExpr 12 [.ident name] (.var p name)
  | parens {ks e} : SpellsExpr 0 ks e → SpellsExpr 12 (.lParen :: (ks ++ [.rParen])) e
  | unary {p k op ks e} : (k, op) ∈ unaryTokens → SpellsExpr 11 ks e →
      SpellsExpr 11 (k :: ks) (.unary p op e)
  | binary {p level k op ks ks' a b} : (k, op) ∈ binaryTokens level →
      SpellsExpr level ks a → SpellsExpr (level + 1) ks' b →
      SpellsExpr level (ks ++ k :: ks') (.binary p op a b)
  | and {p q ks ks' a b} : SpellsExpr 2 ks a → SpellsExpr 3 ks' b →
      SpellsExpr 2 (ks ++ .ampAmp :: ks') (.ternary p a b (.bool q false))
  | or {p q ks ks' a b} : SpellsExpr 1 ks a → SpellsExpr 2 ks' b →
      SpellsExpr 1 (ks ++ .pipePipe :: ks') (.ternary p a (.bool q true) b)
  | ternary {p ks₁ ks₂ ks₃ c t e} : SpellsExpr 1 ks₁ c → SpellsExpr 0 ks₂ t →
      SpellsExpr 0 ks₃ e →
      SpellsExpr 0 (ks₁ ++ .question :: (ks₂ ++ .colon :: ks₃)) (.ternary p c t e)
  | tighter {level ks e} : SpellsExpr (level + 1) ks e → SpellsExpr level ks e

/-- The kinds spell the simple statement. -/
inductive SpellsSimple : List Kind → Simple → Prop
  | declare {p ty name} :
      SpellsSimple [typeToken ty, .ident name] (.declare p ty name none)
  | init {p ty name ks e} : SpellsExpr 0 ks e →
      SpellsSimple (typeToken ty :: .ident name :: .assign :: ks) (.declare p ty name (some e))
  | assign {p name k op ks e} : (k, op) ∈ assignTokens → SpellsExpr 0 ks e →
      SpellsSimple (.ident name :: k :: ks) (.assign p name op e)
  | count {p name k direction} : (k, direction) ∈ countTokens →
      SpellsSimple [.ident name, k] (.count p name direction)
  | expr {p ks e} : SpellsExpr 0 ks e → SpellsSimple ks (.expr p e)

/-- The kinds spell a part of a loop's head that may be missing. -/
inductive SpellsOptional : List Kind → Option Simple → Prop
  | none : SpellsOptional [] none
  | some {ks s} : SpellsSimple ks s → SpellsOptional ks (some s)

/-- Whether a statement ends in an `if` that an `else` could still follow. -/
def Stmt.endsOpen : Stmt → Bool
  | .ifElse _ _ _ none => true
  | .ifElse _ _ _ (some ifFalse) => ifFalse.endsOpen
  | .while_ _ _ body => body.endsOpen
  | .for_ _ _ _ _ body => body.endsOpen
  | _ => false

mutual

/-- The kinds spell the statement. -/
inductive SpellsStmt : List Kind → Stmt → Prop
  | simple {ks s} : SpellsSimple ks s → SpellsStmt (ks ++ [.semi]) (.simple s)
  | block {p ks body} : SpellsStmts ks body →
      SpellsStmt (.lBrace :: (ks ++ [.rBrace])) (.block p body)
  | ifThen {p ks₁ ks₂ c t} : SpellsExpr 0 ks₁ c → SpellsStmt ks₂ t →
      SpellsStmt (.if_ :: .lParen :: (ks₁ ++ .rParen :: ks₂)) (.ifElse p c t none)
  | ifElse {p ks₁ ks₂ ks₃ c t e} : SpellsExpr 0 ks₁ c → SpellsStmt ks₂ t →
      t.endsOpen = false → SpellsStmt ks₃ e →
      SpellsStmt (.if_ :: .lParen :: (ks₁ ++ .rParen :: (ks₂ ++ .else_ :: ks₃)))
        (.ifElse p c t (some e))
  | while_ {p ks₁ ks₂ c body} : SpellsExpr 0 ks₁ c → SpellsStmt ks₂ body →
      SpellsStmt (.while_ :: .lParen :: (ks₁ ++ .rParen :: ks₂)) (.while_ p c body)
  | for_ {p ks₁ ks₂ ks₃ ks₄ init c step body} : SpellsOptional ks₁ init →
      SpellsExpr 0 ks₂ c → SpellsOptional ks₃ step → (∀ s ∈ step, s.isDeclaration = false) →
      SpellsStmt ks₄ body →
      SpellsStmt (.for_ :: .lParen :: (ks₁ ++ .semi :: (ks₂ ++ .semi :: (ks₃ ++ .rParen :: ks₄))))
        (.for_ p init c step body)
  | break_ {p} : SpellsStmt [.break_, .semi] (.break_ p)
  | continue_ {p} : SpellsStmt [.continue_, .semi] (.continue_ p)
  | return_ {p ks e} : SpellsExpr 0 ks e →
      SpellsStmt (.return_ :: (ks ++ [.semi])) (.return_ p e)

/-- The kinds spell the statements, one after another. -/
inductive SpellsStmts : List Kind → List Stmt → Prop
  | nil : SpellsStmts [] []
  | cons {ks ks' s rest} : SpellsStmt ks s → SpellsStmts ks' rest →
      SpellsStmts (ks ++ ks') (s :: rest)

end

/-- The kinds spell the function: its type, its name, no parameters, its body. -/
inductive SpellsFunc : List Kind → Func → Prop
  | mk {p ty name ks body} : SpellsStmts ks body →
      SpellsFunc (typeToken ty :: .ident name :: .lParen :: .rParen :: .lBrace :: (ks ++ [.rBrace]))
        ⟨p, ty, name, body⟩

/-- The kinds spell the functions, one after another. -/
inductive SpellsFuncs : List Kind → List Func → Prop
  | nil : SpellsFuncs [] []
  | cons {ks ks' f rest} : SpellsFunc ks f → SpellsFuncs ks' rest →
      SpellsFuncs (ks ++ ks') (f :: rest)

/-- The kinds spell the program. -/
def SpellsProgram (ks : List Kind) (program : Program) : Prop := SpellsFuncs ks program.functions

/-! ### Trees without places -/

/-- The expression with its places forgotten. -/
def Expr.unplaced : Expr → Expr
  | .int _ value => .int .start value
  | .bool _ value => .bool .start value
  | .var _ name => .var .start name
  | .unary _ op operand => .unary .start op operand.unplaced
  | .binary _ op left right => .binary .start op left.unplaced right.unplaced
  | .ternary _ condition ifTrue ifFalse =>
    .ternary .start condition.unplaced ifTrue.unplaced ifFalse.unplaced

/-- The simple statement with its places forgotten. -/
def Simple.unplaced : Simple → Simple
  | .declare _ ty name init => .declare .start ty name (init.map Expr.unplaced)
  | .assign _ name op value => .assign .start name op value.unplaced
  | .count _ name direction => .count .start name direction
  | .expr _ value => .expr .start value.unplaced

mutual

/-- The statement with its places forgotten. -/
def Stmt.unplaced : Stmt → Stmt
  | .simple s => .simple s.unplaced
  | .block _ body => .block .start (unplacedAll body)
  | .ifElse _ condition ifTrue none => .ifElse .start condition.unplaced ifTrue.unplaced none
  | .ifElse _ condition ifTrue (some ifFalse) =>
    .ifElse .start condition.unplaced ifTrue.unplaced (some ifFalse.unplaced)
  | .while_ _ condition body => .while_ .start condition.unplaced body.unplaced
  | .for_ _ init condition step body =>
    .for_ .start (init.map Simple.unplaced) condition.unplaced (step.map Simple.unplaced)
      body.unplaced
  | .break_ _ => .break_ .start
  | .continue_ _ => .continue_ .start
  | .return_ _ value => .return_ .start value.unplaced

/-- The statements with their places forgotten. -/
def unplacedAll : List Stmt → List Stmt
  | [] => []
  | s :: rest => s.unplaced :: unplacedAll rest

end

/-- The function with its places forgotten. -/
def Func.unplaced (f : Func) : Func := ⟨.start, f.returns, f.name, unplacedAll f.body⟩

/-- The program with its places forgotten. -/
def Program.unplaced (program : Program) : Program := ⟨program.functions.map Func.unplaced⟩

/-! ### What spellings hold -/

namespace SpellsExpr

variable {n : Nat} {ks : List Kind} {e : Expr}

/-- What binds tighter may stand where less is asked. -/
theorem loosen {m : Nat} (h : SpellsExpr n ks e) (hm : m ≤ n) : SpellsExpr m ks e := by
  induction hm with
  | refl => exact h
  | step _ ih => exact ih h.tighter

theorem ne_nil (h : SpellsExpr n ks e) : ks ≠ [] := by
  induction h with
  | tighter _ ih => exact ih
  | number | true_ | false_ | name | parens | unary | binary | and | or | ternary => simp

theorem length_pos (h : SpellsExpr n ks e) : 0 < ks.length := List.length_pos_iff.mpr h.ne_nil

/-- No expression begins with a closing parenthesis. -/
theorem head_ne_rParen (h : SpellsExpr n ks e) : ∀ k ∈ ks.head?, k ≠ .rParen := by
  induction h with
  | number | true_ | false_ | name | parens => simp
  | unary hk =>
    have hall : ∀ pair ∈ unaryTokens, pair.1 ≠ .rParen := by decide
    simpa using hall _ hk
  | binary _ ha _ iha | and ha _ iha | or ha _ iha | ternary ha _ _ iha =>
    rwa [List.head?_append_of_ne_nil _ ha.ne_nil]
  | tighter _ ih => exact ih

end SpellsExpr

/-- The kinds that do not stand in expressions: they begin or end a statement, name
a type, assign or count. -/
def outsideExpr : List Kind :=
  [.int, .bool, .if_, .else_, .while_, .for_, .break_, .continue_, .return_, .lBrace, .rBrace, .semi,
    .assign, .plusAssign, .minusAssign, .starAssign, .slashAssign, .percentAssign, .shlAssign,
    .shrAssign, .ampAssign, .pipeAssign, .caretAssign, .plusPlus, .minusMinus, .eof]

variable {k : Kind} {n : Nat} {ks : List Kind}

theorem not_outsideExpr_of_unary {op : UnaryOp} (h : (k, op) ∈ unaryTokens) : k ∉ outsideExpr := by
  simp only [unaryTokens, List.mem_cons, Prod.mk.injEq, List.not_mem_nil, or_false] at h
  rcases h with ⟨rfl, -⟩ | ⟨rfl, -⟩ | ⟨rfl, -⟩ <;> decide

theorem lt_of_mem_binaryTokens {op : BinaryOp} (h : (k, op) ∈ binaryTokens n) : n < 11 := by
  by_contra hn
  obtain ⟨m, rfl⟩ := Nat.exists_eq_add_of_le (not_lt.mp hn)
  rw [Nat.add_comm] at h
  cases h

theorem not_outsideExpr_of_binary {op : BinaryOp} (h : (k, op) ∈ binaryTokens n) : k ∉ outsideExpr := by
  have hall : ∀ n < 11, ∀ pair ∈ binaryTokens n, pair.1 ∉ outsideExpr := by decide
  exact hall n (lt_of_mem_binaryTokens h) _ h

theorem SpellsExpr.not_outside {e : Expr} (h : SpellsExpr n ks e) : ∀ k ∈ ks, k ∉ outsideExpr := by
  induction h with
  | number | true_ | false_ | name => simp [outsideExpr]
  | parens _ ih =>
    simp only [List.mem_append, List.mem_cons, List.not_mem_nil, or_false]
    rintro k (rfl | h | rfl)
    · decide
    · exact ih k h
    · decide
  | unary hk _ ih => simpa [not_outsideExpr_of_unary hk] using ih
  | binary hk _ _ ih₁ ih₂ =>
    simp only [List.mem_append, List.mem_cons]
    rintro k (h | rfl | h)
    · exact ih₁ k h
    · exact not_outsideExpr_of_binary hk
    · exact ih₂ k h
  | and _ _ ih₁ ih₂ | or _ _ ih₁ ih₂ =>
    simp only [List.mem_append, List.mem_cons]
    rintro k (h | rfl | h)
    · exact ih₁ k h
    · decide
    · exact ih₂ k h
  | ternary _ _ _ ih₁ ih₂ ih₃ =>
    simp only [List.mem_append, List.mem_cons]
    rintro k (h | rfl | h | rfl | h)
    · exact ih₁ k h
    · decide
    · exact ih₂ k h
    · decide
    · exact ih₃ k h
  | tighter _ ih => exact ih

/-! ### Places do not matter -/

/-- Trees that differ in places only are spelled alike. -/
theorem SpellsExpr.of_unplaced {e e' : Expr} (h : SpellsExpr n ks e) (he : e'.unplaced = e.unplaced) :
    SpellsExpr n ks e' := by
  induction h generalizing e' with
  | number =>
    cases e' <;> simp only [Expr.unplaced, Expr.int.injEq, true_and, reduceCtorEq] at he
    subst he
    exact .number
  | true_ =>
    cases e' <;> simp only [Expr.unplaced, Expr.bool.injEq, true_and, reduceCtorEq] at he
    subst he
    exact .true_
  | false_ =>
    cases e' <;> simp only [Expr.unplaced, Expr.bool.injEq, true_and, reduceCtorEq] at he
    subst he
    exact .false_
  | name =>
    cases e' <;> simp only [Expr.unplaced, Expr.var.injEq, true_and, reduceCtorEq] at he
    subst he
    exact .name
  | parens _ ih => exact .parens (ih he)
  | unary hk _ ih =>
    cases e' <;> simp only [Expr.unplaced, Expr.unary.injEq, true_and, reduceCtorEq] at he
    obtain ⟨rfl, he⟩ := he
    exact .unary hk (ih he)
  | binary hk _ _ iha ihb =>
    cases e' <;> simp only [Expr.unplaced, Expr.binary.injEq, true_and, reduceCtorEq] at he
    obtain ⟨rfl, ha, hb⟩ := he
    exact .binary hk (iha ha) (ihb hb)
  | and _ _ iha ihb =>
    cases e' <;> simp only [Expr.unplaced, Expr.ternary.injEq, true_and, reduceCtorEq] at he
    next p a b f =>
    obtain ⟨ha, hb, hf⟩ := he
    cases f <;> simp only [Expr.unplaced, Expr.bool.injEq, true_and, reduceCtorEq] at hf
    subst hf
    exact .and (iha ha) (ihb hb)
  | or _ _ iha ihb =>
    cases e' <;> simp only [Expr.unplaced, Expr.ternary.injEq, true_and, reduceCtorEq] at he
    next p a t b =>
    obtain ⟨ha, ht, hb⟩ := he
    cases t <;> simp only [Expr.unplaced, Expr.bool.injEq, true_and, reduceCtorEq] at ht
    subst ht
    exact .or (iha ha) (ihb hb)
  | ternary _ _ _ iha iht ihf =>
    cases e' <;> simp only [Expr.unplaced, Expr.ternary.injEq, true_and, reduceCtorEq] at he
    obtain ⟨ha, ht, hf⟩ := he
    exact .ternary (iha ha) (iht ht) (ihf hf)
  | tighter _ ih => exact (ih he).tighter

theorem SpellsSimple.of_unplaced {s s' : Simple} (h : SpellsSimple ks s)
    (hs : s'.unplaced = s.unplaced) : SpellsSimple ks s' := by
  cases h with
  | declare =>
    cases s' <;> simp only [Simple.unplaced, Simple.declare.injEq, true_and, reduceCtorEq] at hs
    obtain ⟨rfl, rfl, hinit⟩ := hs
    obtain rfl := Option.map_eq_none_iff.mp hinit
    exact .declare
  | init he =>
    cases s' <;> simp only [Simple.unplaced, Simple.declare.injEq, true_and, reduceCtorEq] at hs
    obtain ⟨rfl, rfl, hinit⟩ := hs
    obtain ⟨e', rfl, he'⟩ := Option.map_eq_some_iff.mp hinit
    exact .init (he.of_unplaced he')
  | assign hk he =>
    cases s' <;> simp only [Simple.unplaced, Simple.assign.injEq, true_and, reduceCtorEq] at hs
    obtain ⟨rfl, rfl, hvalue⟩ := hs
    exact .assign hk (he.of_unplaced hvalue)
  | count hk =>
    cases s' <;> simp only [Simple.unplaced, Simple.count.injEq, true_and, reduceCtorEq] at hs
    obtain ⟨rfl, rfl⟩ := hs
    exact .count hk
  | expr he =>
    cases s' <;> simp only [Simple.unplaced, Simple.expr.injEq, true_and, reduceCtorEq] at hs
    exact .expr (he.of_unplaced hs)

theorem SpellsOptional.of_unplaced {s s' : Option Simple} (h : SpellsOptional ks s)
    (hs : s'.map Simple.unplaced = s.map Simple.unplaced) : SpellsOptional ks s' := by
  cases h with
  | none =>
    obtain rfl := Option.map_eq_none_iff.mp hs
    exact .none
  | some ha =>
    obtain ⟨a', rfl, ha'⟩ := Option.map_eq_some_iff.mp hs
    exact .some (ha.of_unplaced ha')

theorem isDeclaration_unplaced (s : Simple) : s.unplaced.isDeclaration = s.isDeclaration := by
  cases s <;> rfl

theorem endsOpen_unplaced : ∀ s : Stmt, s.unplaced.endsOpen = s.endsOpen
  | .simple _ => by simp only [Stmt.unplaced, Stmt.endsOpen]
  | .block _ _ => by simp only [Stmt.unplaced, Stmt.endsOpen]
  | .ifElse _ _ _ none => by simp only [Stmt.unplaced, Stmt.endsOpen]
  | .ifElse _ _ _ (some f) => by simp only [Stmt.unplaced, Stmt.endsOpen, endsOpen_unplaced f]
  | .while_ _ _ body
  | .for_ _ _ _ _ body => by simp only [Stmt.unplaced, Stmt.endsOpen, endsOpen_unplaced body]
  | .break_ _ => by simp only [Stmt.unplaced, Stmt.endsOpen]
  | .continue_ _ => by simp only [Stmt.unplaced, Stmt.endsOpen]
  | .return_ _ _ => by simp only [Stmt.unplaced, Stmt.endsOpen]

theorem Stmt.unplaced_ifElse (p : Span) (c : Expr) (t : Stmt) (f : Option Stmt) :
    (Stmt.ifElse p c t f).unplaced = .ifElse .start c.unplaced t.unplaced (f.map Stmt.unplaced) := by
  cases f <;> rw [Stmt.unplaced] <;> rfl

attribute [local simp] Stmt.unplaced_ifElse

mutual

theorem spellsStmt_of_unplaced : ∀ (s s' : Stmt) {ks : List Kind}, s'.unplaced = s.unplaced →
    SpellsStmt ks s → SpellsStmt ks s'
  | .simple a, s', _, h, .simple ha => by
    cases s' <;> simp [Stmt.unplaced] at h
    exact .simple (ha.of_unplaced h)
  | .block _ body, s', _, h, .block hbody => by
    cases s' <;> simp [Stmt.unplaced] at h
    exact .block (spellsStmts_of_unplaced body _ h hbody)
  | .ifElse _ c t none, s', _, h, .ifThen hc ht => by
    cases s' <;> simp [Stmt.unplaced] at h
    obtain ⟨h₁, h₂, rfl⟩ := h
    exact .ifThen (hc.of_unplaced h₁) (spellsStmt_of_unplaced t _ h₂ ht)
  | .ifElse _ c t (some f), s', _, h, .ifElse hc ht hclosed hf => by
    cases s' <;> simp [Stmt.unplaced] at h
    next p c' t' f' =>
    obtain ⟨h₁, h₂, f', rfl, h₃⟩ := h
    have hclosed' : t'.endsOpen = false := by
      rw [← endsOpen_unplaced, h₂, endsOpen_unplaced, hclosed]
    exact .ifElse (hc.of_unplaced h₁) (spellsStmt_of_unplaced t t' h₂ ht) hclosed'
      (spellsStmt_of_unplaced f f' h₃ hf)
  | .while_ _ c body, s', _, h, .while_ hc hbody => by
    cases s' <;> simp [Stmt.unplaced] at h
    exact .while_ (hc.of_unplaced h.1) (spellsStmt_of_unplaced body _ h.2 hbody)
  | .for_ _ init c step body, s', _, h, .for_ hinit hc hstep hdecl hbody => by
    cases s' <;> simp [Stmt.unplaced] at h
    next p init' c' step' body' =>
    obtain ⟨h₁, h₂, h₃, h₄⟩ := h
    have hdecl' : ∀ a' ∈ step', a'.isDeclaration = false := by
      rintro a' rfl
      obtain ⟨a, rfl, ha⟩ := Option.map_eq_some_iff.mp h₃.symm
      rw [← isDeclaration_unplaced, ← ha, isDeclaration_unplaced]
      exact hdecl a rfl
    exact .for_ (hinit.of_unplaced h₁) (hc.of_unplaced h₂) (hstep.of_unplaced h₃) hdecl'
      (spellsStmt_of_unplaced body body' h₄ hbody)
  | .break_ _, s', _, h, .break_ => by
    cases s' <;> simp [Stmt.unplaced] at h
    exact .break_
  | .continue_ _, s', _, h, .continue_ => by
    cases s' <;> simp [Stmt.unplaced] at h
    exact .continue_
  | .return_ _ e, s', _, h, .return_ he => by
    cases s' <;> simp [Stmt.unplaced] at h
    exact .return_ (he.of_unplaced h)

theorem spellsStmts_of_unplaced : ∀ (body body' : List Stmt) {ks : List Kind},
    unplacedAll body' = unplacedAll body → SpellsStmts ks body → SpellsStmts ks body'
  | [], body', _, h, hs => by
    cases hs
    cases body' with
    | nil => exact .nil
    | cons s' rest' => simp [unplacedAll] at h
  | s :: rest, body', _, h, hs => by
    cases hs with
    | cons hs hrest =>
      cases body' with
      | nil => simp [unplacedAll] at h
      | cons s' rest' =>
        simp only [unplacedAll, List.cons.injEq] at h
        exact .cons (spellsStmt_of_unplaced s s' h.1 hs) (spellsStmts_of_unplaced rest rest' h.2 hrest)

end

theorem SpellsFuncs.of_unplaced {fs fs' : List Func} (h : SpellsFuncs ks fs)
    (hfs : fs'.map Func.unplaced = fs.map Func.unplaced) : SpellsFuncs ks fs' := by
  induction h generalizing fs' with
  | nil =>
    obtain rfl := List.map_eq_nil_iff.mp hfs
    exact .nil
  | cons hf _ ih =>
    obtain ⟨⟨p', ty', name', body'⟩, rest', rfl, hf', hrest⟩ := List.map_eq_cons_iff.mp hfs
    cases hf with
    | mk hbody =>
      simp only [Func.unplaced, Func.mk.injEq, true_and] at hf'
      obtain ⟨rfl, rfl, hbody'⟩ := hf'
      exact .cons (.mk (spellsStmts_of_unplaced _ body' hbody' hbody)) (ih hrest)

end Chordal.Syntax
