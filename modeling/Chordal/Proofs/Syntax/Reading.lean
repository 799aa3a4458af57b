/-
# What is read is spelled

A cursor that moves from one place to another passes the tokens between them
(`Cursor.Moves`). Whatever the reader returns, the tokens it has passed spell:
this is shown for every part of the grammar, by recursion on the depth of calls.

Chains of binary operators are read by climbing. While a chain of operators of
level `least` and above is read, its left part is an expression of some level, and
the next operator, if there is one, binds no tighter than that level. This is why
the next operator may take all of the left part as its operand.

A statement that ends in an `if` without `else` is never followed by an `else`,
since the reader would have taken it.

Key definitions: `Cursor.Moves`.
Key theorems: `expr_spells`, `binaryTail_spells`, `stmt_spells`, `funcs_spells`.
-/
import Mathlib
import Chordal.Syntax.Parser
import Chordal.Proofs.Finite
import Chordal.Proofs.Syntax.Grammar

namespace Chordal.Syntax

open Token (Kind)

/-! ### Passing tokens -/

/-- Between the two cursors stand tokens of these kinds, the end mark not among
them. -/
inductive Cursor.Moves : Cursor → List Kind → Cursor → Prop
  | done {c} : Moves c [] c
  | token {t rest last ks c} : t.kind ≠ .eof → Moves ⟨rest, last⟩ ks c →
      Moves ⟨t :: rest, last⟩ (t.kind :: ks) c

namespace Cursor

variable {c c' c'' : Cursor} {ks ks' : List Kind} {k : Kind}

theorem Moves.trans (h : Moves c ks c') (h' : Moves c' ks' c'') :
    Moves c (ks ++ ks') c'' := by
  induction h with
  | done => exact h'
  | token ht _ ih => exact .token ht (ih h')

theorem Moves.last_eof (h : Moves c ks c') (hlast : c.last.kind = .eof) : c'.last.kind = .eof := by
  induction h with
  | done => exact hlast
  | token _ _ ih => exact ih hlast

section

variable (hlast : c.last.kind = .eof)

include hlast

/-- A token that is not the end mark is passed by advancing. -/
theorem moves_advance (hpeek : c.peek = k) (hk : k ≠ .eof) : Moves c [k] c.advance := by
  obtain ⟨rest, last⟩ := c
  cases rest with
  | nil => exact absurd (hpeek.symm.trans hlast) hk
  | cons t rest =>
    obtain rfl : t.kind = k := hpeek
    exact .token hk .done

/-- A token that stands in a table of tokens is passed. -/
theorem moves_known {α : Type} {table : Kind → Option α} {a : α} (heof : table .eof = none)
    (h : table c.peek = some a) : Moves c [c.peek] c.advance :=
  moves_advance hlast rfl fun hpeek => by
    rw [hpeek, heof] at h
    cases h

/-- A token that has to come next is passed. -/
theorem expect_moves (hk : k ≠ .eof) (h : c.expect k = .ok c') : Moves c [k] c' := by
  unfold expect at h
  split_ifs at h with hpeek
  · obtain rfl := Except.ok.inj h
    exact moves_advance hlast hpeek hk
  · cases h

theorem expectName_moves {name : String} (h : c.expectName = .ok (name, c')) : Moves c [.ident name] c' := by
  unfold expectName at h
  split at h
  · next found hpeek =>
    obtain ⟨rfl, rfl⟩ := ok_pair_inj h
    exact moves_advance hlast hpeek (by simp)
  · cases h

end

/-- The tokens from one cursor to another spell what was read between them. -/
def Spelled {α : Type} (spells : List Kind → α → Prop) (c : Cursor) (a : α) (c' : Cursor) : Prop :=
  ∃ ks, Moves c ks c' ∧ spells ks a

theorem Spelled.imp {α β : Type} {spells : List Kind → α → Prop} {spells' : List Kind → β → Prop} {a : α} {b : β}
    (h : Spelled spells c a c') (himp : ∀ ks, spells ks a → spells' ks b) : Spelled spells' c b c' := by
  obtain ⟨ks, hmove, hks⟩ := h
  exact ⟨ks, hmove, himp ks hks⟩

end Cursor

open Cursor

/-! ### Tokens of the reader and of the grammar -/

theorem typeToken_of_type? {k : Kind} {ty : Ty} (h : type? k = some ty) : k = typeToken ty := by
  cases k <;> cases h <;> rfl

theorem mem_unaryTokens {k : Kind} {op : UnaryOp} (h : unary? k = some op) : (k, op) ∈ unaryTokens := by
  cases k <;> cases h <;> decide

theorem spells_atom {p : Span} {k : Kind} {e : Expr} (h : atom? p k = some e) : SpellsExpr 12 [k] e := by
  cases k <;> cases h <;> constructor

theorem mem_assignTokens {k : Kind} {op : Option BinaryOp} (h : assignment? k = some op) :
    (k, op) ∈ assignTokens := by
  cases k <;> cases h <;> decide

theorem mem_countTokens {k : Kind} {direction : Count} (h : count? k = some direction) :
    (k, direction) ∈ countTokens := by
  cases k <;> cases h <;> decide

/-- Binary operators stand on the levels one to ten. -/
theorem infix?_level {k : Kind} {op : Infix} {n : Nat} (h : infix? k = some (op, n)) : 1 ≤ n ∧ n ≤ 10 := by
  cases k <;> cases h <;> decide

/-- An operator makes an expression of its own level of its operands. -/
theorem spells_operator {k : Kind} {op : Infix} {n : Nat} {ks ks' : List Kind} {a b : Expr} (p : Span)
    (h : infix? k = some (op, n)) (ha : SpellsExpr n ks a) (hb : SpellsExpr (n + 1) ks' b) :
    SpellsExpr n (ks ++ k :: ks') (op.apply p a b) := by
  cases op with
  | logicalOr =>
    cases k <;> cases h
    exact .or ha hb
  | logicalAnd =>
    cases k <;> cases h
    exact .and ha hb
  | plain op =>
    refine .binary ?_ ha hb
    cases k <;> cases h <;> decide

/-! ### Expressions -/

/-- The next operator, if there is one, is of level `n` or looser. -/
def Cursor.NextWithin (n : Nat) (c : Cursor) : Prop :=
  ∀ op m, infix? c.peek = some (op, m) → m ≤ n

mutual

theorem expr_spells : ∀ (d : Nat) {c c' : Cursor} {e : Expr}, c.last.kind = .eof →
    c.expr d = .ok (e, c') → Spelled (SpellsExpr 0) c e c'
  | 0, c, c', e, _, h => by cases h
  | d + 1, c, c', e, hlast, h => by
    rw [Cursor.expr] at h
    obtain ⟨⟨a, c₁⟩, ha, h⟩ := bind_eq_ok.mp h
    obtain ⟨⟨ks₁, hmove₁, hks₁⟩, -⟩ := binary_spells d (by omega) hlast ha
    dsimp only at h
    split_ifs at h with hquestion
    · obtain ⟨⟨t, c₂⟩, ht, h⟩ := bind_eq_ok.mp h
      obtain ⟨c₃, hcolon, h⟩ := bind_eq_ok.mp h
      obtain ⟨⟨f, c₄⟩, hf, rfl, rfl⟩ := bind_pure_pair h
      have hlast₁ := hmove₁.last_eof hlast
      obtain ⟨ks₂, hmove₂, hks₂⟩ := expr_spells d (c := c₁.advance) hlast₁ ht
      have hlast₂ := hmove₂.last_eof hlast₁
      have hmove₃ := expect_moves hlast₂ (by simp) hcolon
      obtain ⟨ks₃, hmove₄, hks₃⟩ := expr_spells d (hmove₃.last_eof hlast₂) hf
      exact ⟨_, hmove₁.trans ((moves_advance hlast₁ hquestion (by simp)).trans
        (hmove₂.trans (hmove₃.trans hmove₄))), .ternary hks₁ hks₂ hks₃⟩
    · obtain ⟨rfl, rfl⟩ := ok_pair_inj h
      exact ⟨ks₁, hmove₁, hks₁.tighter⟩

theorem binary_spells : ∀ (d : Nat) {least : Nat} {c c' : Cursor} {e : Expr}, least ≤ 10 →
    c.last.kind = .eof → c.binary d (least + 1) = .ok (e, c') →
    Spelled (SpellsExpr (least + 1)) c e c' ∧ c'.NextWithin least
  | 0, _, c, c', e, _, _, h => by cases h
  | d + 1, least, c, c', e, hleast, hlast, h => by
    rw [Cursor.binary] at h
    obtain ⟨⟨left, c₁⟩, hleft, h⟩ := bind_eq_ok.mp h
    obtain ⟨ks₁, hmove₁, hks₁⟩ := unary_spells d hlast hleft
    have hnext : c₁.NextWithin 11 := fun op m hm => by
      have := (infix?_level hm).2
      omega
    obtain ⟨⟨ks₂, hmove₂, hks₂⟩, hafter⟩ :=
      binaryTail_spells d (hmove₁.last_eof hlast) hks₁ (by omega) hnext h
    exact ⟨⟨ks₁ ++ ks₂, hmove₁.trans hmove₂, hks₂⟩, hafter⟩

/-- The left part is of level `m`, and the next operator is not tighter than that. -/
theorem binaryTail_spells : ∀ (d : Nat) {least m : Nat} {c c' : Cursor} {left e : Expr} {ks : List Kind},
    c.last.kind = .eof → SpellsExpr m ks left → least + 1 ≤ m → c.NextWithin m →
    c.binaryTail d (least + 1) left = .ok (e, c') →
    Spelled (fun ks' => SpellsExpr (least + 1) (ks ++ ks')) c e c' ∧ c'.NextWithin least
  | 0, _, _, c, c', _, e, _, _, _, _, _, h => by cases h
  | d + 1, least, m, c, c', left, e, ks, hlast, hleft, hm, hnext, h => by
    rw [Cursor.binaryTail] at h
    cases hop : infix? c.peek with
    | none =>
      simp only [hop, Except.ok.injEq, Prod.mk.injEq] at h
      obtain ⟨rfl, rfl⟩ := h
      refine ⟨⟨[], .done, ?_⟩, fun op n hn => by simp [hop] at hn⟩
      simpa using hleft.loosen hm
    | some pair =>
      obtain ⟨op, n⟩ := pair
      simp only [hop] at h
      split_ifs at h with hloose
      · obtain ⟨rfl, rfl⟩ := ok_pair_inj h
        refine ⟨⟨[], .done, ?_⟩, fun op' n' hn => ?_⟩
        · simpa using hleft.loosen hm
        · obtain ⟨-, rfl⟩ := Prod.mk.inj (Option.some.inj (hop.symm.trans hn))
          omega
      · obtain ⟨⟨right, c₁⟩, hright, h⟩ := bind_eq_ok.mp h
        have hn := infix?_level hop
        have hmove := moves_known hlast rfl hop
        obtain ⟨⟨ks₁, hmove₁, hks₁⟩, hnext₁⟩ :=
          binary_spells d (c := c.advance) (by omega) hlast hright
        -- the new left part is of the operator's own level
        have hleft' := spells_operator c.span hop (hleft.loosen (hnext op n hop)) hks₁
        obtain ⟨⟨ks₂, hmove₂, hks₂⟩, hafter⟩ :=
          binaryTail_spells d (hmove₁.last_eof hlast) hleft' (by omega) hnext₁ h
        refine ⟨⟨_, hmove.trans (hmove₁.trans hmove₂), ?_⟩, hafter⟩
        simpa using hks₂

theorem unary_spells : ∀ (d : Nat) {c c' : Cursor} {e : Expr}, c.last.kind = .eof →
    c.unary d = .ok (e, c') → Spelled (SpellsExpr 11) c e c'
  | 0, c, c', e, _, h => by cases h
  | d + 1, c, c', e, hlast, h => by
    rw [Cursor.unary] at h
    cases hop : unary? c.peek with
    | none =>
      simp only [hop] at h
      exact (primary_spells d hlast h).imp fun _ => .tighter
    | some op =>
      simp only [hop] at h
      obtain ⟨⟨operand, c₁⟩, hoperand, rfl, rfl⟩ := bind_pure_pair h
      obtain ⟨ks, hmove, hks⟩ := unary_spells d (c := c.advance) hlast hoperand
      exact ⟨_, (moves_known hlast rfl hop).trans hmove, .unary (mem_unaryTokens hop) hks⟩

theorem primary_spells : ∀ (d : Nat) {c c' : Cursor} {e : Expr}, c.last.kind = .eof →
    c.primary d = .ok (e, c') → Spelled (SpellsExpr 12) c e c'
  | 0, c, c', e, _, h => by cases h
  | d + 1, c, c', e, hlast, h => by
    rw [Cursor.primary] at h
    cases hatom : atom? c.span c.peek with
    | some a =>
      simp only [hatom, Except.ok.injEq, Prod.mk.injEq] at h
      obtain ⟨rfl, rfl⟩ := h
      exact ⟨_, moves_known hlast rfl hatom, spells_atom hatom⟩
    | none =>
      simp only [hatom] at h
      split_ifs at h with hopen
      · obtain ⟨⟨inner, c₁⟩, hinner, h⟩ := bind_eq_ok.mp h
        obtain ⟨c₂, hclose, rfl, rfl⟩ := bind_pure_pair h
        obtain ⟨ks, hmove, hks⟩ := expr_spells d (c := c.advance) hlast hinner
        have hlast₁ := hmove.last_eof hlast
        exact ⟨_, (moves_advance hlast hopen (by simp)).trans
          (hmove.trans (expect_moves hlast₁ (by simp) hclose)), .parens hks⟩
      · cases h

end

/-! ### Simple statements -/

section

variable {d : Nat} {c c' : Cursor}

section

variable (hlast : c.last.kind = .eof)

include hlast

theorem condition_spells {e : Expr} (h : c.condition d = .ok (e, c')) :
    ∃ ks, Moves c (.lParen :: (ks ++ [.rParen])) c' ∧ SpellsExpr 0 ks e := by
  unfold Cursor.condition at h
  obtain ⟨c₁, hopen, h⟩ := bind_eq_ok.mp h
  obtain ⟨⟨e', c₂⟩, he, h⟩ := bind_eq_ok.mp h
  obtain ⟨c₃, hclose, rfl, rfl⟩ := bind_pure_pair h
  have hmove₁ := expect_moves hlast (by simp) hopen
  have hlast₁ := hmove₁.last_eof hlast
  obtain ⟨ks, hmove, hks⟩ := expr_spells d hlast₁ he
  have hlast₂ := hmove.last_eof hlast₁
  exact ⟨ks, hmove₁.trans (hmove.trans (expect_moves hlast₂ (by simp) hclose)), hks⟩

theorem declaration_spells {p : Span} {ty : Ty} {s : Simple}
    (h : c.declaration d p ty = .ok (s, c')) :
    Spelled (fun ks => SpellsSimple (typeToken ty :: ks)) c s c' := by
  unfold Cursor.declaration at h
  obtain ⟨⟨name, c₁⟩, hname, h⟩ := bind_eq_ok.mp h
  have hmove₁ := expectName_moves hlast hname
  have hlast₁ := hmove₁.last_eof hlast
  dsimp only at h
  split_ifs at h with hassign
  · obtain ⟨⟨e, c₂⟩, he, rfl, rfl⟩ := bind_pure_pair h
    obtain ⟨ks, hmove, hks⟩ := expr_spells d (c := c₁.advance) hlast₁ he
    exact ⟨_, hmove₁.trans ((moves_advance hlast₁ hassign (by simp)).trans hmove), .init hks⟩
  · obtain ⟨rfl, rfl⟩ := ok_pair_inj h
    exact ⟨_, hmove₁, .declare⟩

theorem exprStmt_spells {s : Simple} (h : c.exprStmt d = .ok (s, c')) :
    Spelled SpellsSimple c s c' := by
  unfold Cursor.exprStmt at h
  obtain ⟨⟨e, c₁⟩, he, rfl, rfl⟩ := bind_pure_pair h
  exact (expr_spells d hlast he).imp fun _ => .expr

theorem simple_spells {s : Simple} (h : c.simple d = .ok (s, c')) :
    Spelled SpellsSimple c s c' := by
  unfold Cursor.simple at h
  cases hty : type? c.peek with
  | some ty =>
    simp only [hty] at h
    have hk := typeToken_of_type? hty
    have hmove₁ := moves_advance hlast hk (by cases ty <;> simp [typeToken])
    obtain ⟨ks, hmove, hks⟩ := declaration_spells (c := c.advance) hlast h
    exact ⟨_, hmove₁.trans hmove, hks⟩
  | none =>
    simp only [hty] at h
    split at h
    · next name hname =>
      have hmove₁ := moves_advance hlast hname (by simp)
      cases hop : assignment? c.peekSecond with
      | some op =>
        simp only [hop] at h
        obtain ⟨⟨e, c₂⟩, he, rfl, rfl⟩ := bind_pure_pair h
        have hmove₂ := moves_known (c := c.advance) hlast rfl hop
        obtain ⟨ks, hmove, hks⟩ := expr_spells d (c := c.advance.advance) hlast he
        exact ⟨_, hmove₁.trans (hmove₂.trans hmove), .assign (mem_assignTokens hop) hks⟩
      | none =>
        simp only [hop] at h
        cases hcount : count? c.peekSecond with
        | some direction =>
          simp only [hcount, Except.ok.injEq, Prod.mk.injEq] at h
          obtain ⟨rfl, rfl⟩ := h
          have hmove₂ := moves_known (c := c.advance) hlast rfl hcount
          exact ⟨_, hmove₁.trans hmove₂, .count (mem_countTokens hcount)⟩
        | none =>
          simp only [hcount] at h
          exact exprStmt_spells hlast h
    · exact exprStmt_spells hlast h

theorem simpleBefore_spells {stop : Kind} {s : Option Simple}
    (h : c.simpleBefore d stop = .ok (s, c')) : Spelled SpellsOptional c s c' := by
  unfold Cursor.simpleBefore at h
  split_ifs at h
  · obtain ⟨rfl, rfl⟩ := ok_pair_inj h
    exact ⟨[], .done, .none⟩
  · obtain ⟨⟨s', c₁⟩, hs, rfl, rfl⟩ := bind_pure_pair h
    exact (simple_spells hlast hs).imp fun _ => .some

theorem forStep_spells {s : Option Simple} (h : c.forStep d = .ok (s, c')) :
    Spelled SpellsOptional c s c' ∧ ∀ a ∈ s, a.isDeclaration = false := by
  unfold Cursor.forStep at h
  obtain ⟨⟨s', c₁⟩, hs, h⟩ := bind_eq_ok.mp h
  have hspelled := simpleBefore_spells hlast hs
  cases s' with
  | none =>
    obtain ⟨rfl, rfl⟩ := ok_pair_inj h
    exact ⟨hspelled, by simp⟩
  | some a =>
    dsimp only at h
    split_ifs at h with hdecl
    obtain ⟨rfl, rfl⟩ := ok_pair_inj h
    exact ⟨hspelled, by simpa using hdecl⟩

end

end

/-! ### Statements -/

mutual

theorem block_spells : ∀ (d : Nat) {c c' : Cursor} {body : List Stmt}, c.last.kind = .eof →
    c.block d = .ok (body, c') →
    ∃ ks, Moves c (.lBrace :: (ks ++ [.rBrace])) c' ∧ SpellsStmts ks body
  | 0, c, c', body, _, h => by cases h
  | d + 1, c, c', body, hlast, h => by
    rw [Cursor.block] at h
    obtain ⟨c₁, hopen, h⟩ := bind_eq_ok.mp h
    have hmove₁ := expect_moves hlast (by simp) hopen
    obtain ⟨ks, hmove, hks⟩ := stmts_spells d (hmove₁.last_eof hlast) h
    exact ⟨ks, hmove₁.trans hmove, hks⟩

theorem stmts_spells : ∀ (d : Nat) {c c' : Cursor} {body : List Stmt}, c.last.kind = .eof →
    c.stmts d = .ok (body, c') → ∃ ks, Moves c (ks ++ [.rBrace]) c' ∧ SpellsStmts ks body
  | 0, c, c', body, _, h => by cases h
  | d + 1, c, c', body, hlast, h => by
    rw [Cursor.stmts] at h
    split_ifs at h with hclose heof
    · obtain ⟨rfl, rfl⟩ := ok_pair_inj h
      exact ⟨[], moves_advance hlast hclose (by simp), .nil⟩
    · cases h
    · obtain ⟨⟨first, c₁⟩, hfirst, h⟩ := bind_eq_ok.mp h
      obtain ⟨⟨others, c₂⟩, hothers, rfl, rfl⟩ := bind_pure_pair h
      obtain ⟨⟨ks₁, hmove₁, hks₁⟩, -⟩ := stmt_spells d hlast hfirst
      obtain ⟨ks₂, hmove₂, hks₂⟩ := stmts_spells d (hmove₁.last_eof hlast) hothers
      refine ⟨ks₁ ++ ks₂, ?_, .cons hks₁ hks₂⟩
      rw [List.append_assoc]
      exact hmove₁.trans hmove₂

/-- What is read spells the statement, and no `else` is left that it could take. -/
theorem stmt_spells : ∀ (d : Nat) {c c' : Cursor} {s : Stmt}, c.last.kind = .eof →
    c.stmt d = .ok (s, c') →
    Spelled SpellsStmt c s c' ∧ (s.endsOpen = true → c'.peek ≠ .else_)
  | 0, c, c', s, _, h => by cases h
  | d + 1, c, c', s, hlast, h => by
    rw [Cursor.stmt] at h
    split at h
    · next hpeek =>
      obtain ⟨⟨body, c₁⟩, hbody, rfl, rfl⟩ := bind_pure_pair h
      obtain ⟨ks, hmove, hks⟩ := block_spells d hlast hbody
      exact ⟨⟨_, hmove, .block hks⟩, fun hopen => by simp [Stmt.endsOpen] at hopen⟩
    · next hpeek =>
      obtain ⟨⟨e, c₁⟩, he, h⟩ := bind_eq_ok.mp h
      obtain ⟨⟨t, c₂⟩, ht, h⟩ := bind_eq_ok.mp h
      have hif := moves_advance hlast hpeek (by simp)
      obtain ⟨ks₁, hmove₁, hks₁⟩ := condition_spells (c := c.advance) hlast he
      have hlast₁ := hmove₁.last_eof hlast
      obtain ⟨⟨ks₂, hmove₂, hks₂⟩, hopen⟩ := stmt_spells d hlast₁ ht
      have hlast₂ := hmove₂.last_eof hlast₁
      have hhead := hif.trans (hmove₁.trans hmove₂)
      dsimp only at h
      split_ifs at h with helse
      · obtain ⟨⟨f, c₃⟩, hf, rfl, rfl⟩ := bind_pure_pair h
        obtain ⟨⟨ks₃, hmove₃, hks₃⟩, hopen₃⟩ := stmt_spells d (c := c₂.advance) hlast₂ hf
        have hclosed : t.endsOpen = false :=
          Bool.eq_false_iff.mpr fun ht => hopen ht helse
        refine ⟨⟨_, hhead.trans ((moves_advance hlast₂ helse (by simp)).trans hmove₃), ?_⟩, ?_⟩
        · simpa using SpellsStmt.ifElse hks₁ hks₂ hclosed hks₃
        · simpa [Stmt.endsOpen] using hopen₃
      · obtain ⟨rfl, rfl⟩ := ok_pair_inj h
        refine ⟨⟨_, hhead, ?_⟩, fun _ => helse⟩
        simpa using SpellsStmt.ifThen hks₁ hks₂
    · next hpeek =>
      obtain ⟨⟨e, c₁⟩, he, h⟩ := bind_eq_ok.mp h
      obtain ⟨⟨body, c₂⟩, hbody, rfl, rfl⟩ := bind_pure_pair h
      have hwhile := moves_advance hlast hpeek (by simp)
      obtain ⟨ks₁, hmove₁, hks₁⟩ := condition_spells (c := c.advance) hlast he
      have hlast₁ := hmove₁.last_eof hlast
      obtain ⟨⟨ks₂, hmove₂, hks₂⟩, hopen⟩ := stmt_spells d hlast₁ hbody
      refine ⟨⟨_, hwhile.trans (hmove₁.trans hmove₂), ?_⟩, ?_⟩
      · simpa using SpellsStmt.while_ hks₁ hks₂
      · simpa [Stmt.endsOpen] using hopen
    · next hpeek =>
      obtain ⟨c₁, hparen, h⟩ := bind_eq_ok.mp h
      obtain ⟨⟨init, c₂⟩, hinit, h⟩ := bind_eq_ok.mp h
      obtain ⟨c₃, hsemi, h⟩ := bind_eq_ok.mp h
      obtain ⟨⟨e, c₄⟩, he, h⟩ := bind_eq_ok.mp h
      obtain ⟨c₅, hsemi', h⟩ := bind_eq_ok.mp h
      obtain ⟨⟨step, c₆⟩, hstep, h⟩ := bind_eq_ok.mp h
      obtain ⟨c₇, hclose, h⟩ := bind_eq_ok.mp h
      obtain ⟨⟨body, c₈⟩, hbody, rfl, rfl⟩ := bind_pure_pair h
      have hfor := moves_advance hlast hpeek (by simp)
      have hmove₁ := expect_moves (c := c.advance) hlast (by simp) hparen
      have hlast₁ := hmove₁.last_eof hlast
      obtain ⟨ks₁, hmove₂, hks₁⟩ := simpleBefore_spells hlast₁ hinit
      have hlast₂ := hmove₂.last_eof hlast₁
      have hmove₃ := expect_moves hlast₂ (by simp) hsemi
      have hlast₃ := hmove₃.last_eof hlast₂
      obtain ⟨ks₂, hmove₄, hks₂⟩ := expr_spells d hlast₃ he
      have hlast₄ := hmove₄.last_eof hlast₃
      have hmove₅ := expect_moves hlast₄ (by simp) hsemi'
      have hlast₅ := hmove₅.last_eof hlast₄
      obtain ⟨⟨ks₃, hmove₆, hks₃⟩, hdecl⟩ := forStep_spells hlast₅ hstep
      have hlast₆ := hmove₆.last_eof hlast₅
      have hmove₇ := expect_moves hlast₆ (by simp) hclose
      have hlast₇ := hmove₇.last_eof hlast₆
      obtain ⟨⟨ks₄, hmove₈, hks₄⟩, hopen⟩ := stmt_spells d hlast₇ hbody
      refine ⟨⟨_, hfor.trans (hmove₁.trans (hmove₂.trans (hmove₃.trans (hmove₄.trans
        (hmove₅.trans (hmove₆.trans (hmove₇.trans hmove₈))))))), .for_ hks₁ hks₂ hks₃ hdecl hks₄⟩, ?_⟩
      simpa [Stmt.endsOpen] using hopen
    · next hpeek =>
      obtain ⟨c₁, hsemi, rfl, rfl⟩ := bind_pure_pair h
      exact ⟨⟨_, (moves_advance hlast hpeek (by simp)).trans
        (expect_moves (c := c.advance) hlast (by simp) hsemi), .break_⟩,
        fun hopen => by simp [Stmt.endsOpen] at hopen⟩
    · next hpeek =>
      obtain ⟨c₁, hsemi, rfl, rfl⟩ := bind_pure_pair h
      exact ⟨⟨_, (moves_advance hlast hpeek (by simp)).trans
        (expect_moves (c := c.advance) hlast (by simp) hsemi), .continue_⟩,
        fun hopen => by simp [Stmt.endsOpen] at hopen⟩
    · next hpeek =>
      obtain ⟨⟨e, c₁⟩, he, h⟩ := bind_eq_ok.mp h
      obtain ⟨c₂, hsemi, rfl, rfl⟩ := bind_pure_pair h
      obtain ⟨ks, hmove, hks⟩ := expr_spells d (c := c.advance) hlast he
      have hlast₁ := hmove.last_eof hlast
      exact ⟨⟨_, (moves_advance hlast hpeek (by simp)).trans
        (hmove.trans (expect_moves hlast₁ (by simp) hsemi)), .return_ hks⟩,
        fun hopen => by simp [Stmt.endsOpen] at hopen⟩
    · obtain ⟨⟨a, c₁⟩, ha, h⟩ := bind_eq_ok.mp h
      obtain ⟨c₂, hsemi, rfl, rfl⟩ := bind_pure_pair h
      obtain ⟨ks, hmove, hks⟩ := simple_spells hlast ha
      have hlast₁ := hmove.last_eof hlast
      exact ⟨⟨_, hmove.trans (expect_moves hlast₁ (by simp) hsemi), .simple hks⟩,
        fun hopen => by simp [Stmt.endsOpen] at hopen⟩

end

/-! ### Programs -/

theorem func_spells {d : Nat} {c c' : Cursor} {f : Func} (hlast : c.last.kind = .eof)
    (h : c.func d = .ok (f, c')) : Spelled SpellsFunc c f c' := by
  unfold Cursor.func at h
  cases hty : type? c.peek with
  | none =>
    simp only [hty] at h
    cases h
  | some ty =>
    simp only [hty] at h
    obtain ⟨⟨name, c₁⟩, hname, h⟩ := bind_eq_ok.mp h
    obtain ⟨c₂, hopen, h⟩ := bind_eq_ok.mp h
    obtain ⟨c₃, hclose, h⟩ := bind_eq_ok.mp h
    obtain ⟨⟨body, c₄⟩, hbody, rfl, rfl⟩ := bind_pure_pair h
    have hk := typeToken_of_type? hty
    have hmove₀ := moves_advance hlast hk (by cases ty <;> simp [typeToken])
    have hmove₁ := expectName_moves (c := c.advance) hlast hname
    have hlast₁ := hmove₁.last_eof hlast
    have hmove₂ := expect_moves hlast₁ (by simp) hopen
    have hlast₂ := hmove₂.last_eof hlast₁
    have hmove₃ := expect_moves hlast₂ (by simp) hclose
    obtain ⟨ks, hmove₄, hks⟩ := block_spells d (hmove₃.last_eof hlast₂) hbody
    exact ⟨_, hmove₀.trans (hmove₁.trans (hmove₂.trans (hmove₃.trans hmove₄))), .mk hks⟩

/-- The functions are read up to the end mark. -/
theorem funcs_spells : ∀ (d : Nat) {c c' : Cursor} {fs : List Func}, c.last.kind = .eof →
    c.funcs d = .ok (fs, c') → Spelled SpellsFuncs c fs c' ∧ c'.peek = .eof
  | 0, c, c', fs, _, h => by cases h
  | d + 1, c, c', fs, hlast, h => by
    rw [Cursor.funcs] at h
    split_ifs at h with heof
    · obtain ⟨rfl, rfl⟩ := ok_pair_inj h
      exact ⟨⟨[], .done, .nil⟩, heof⟩
    · obtain ⟨⟨first, c₁⟩, hfirst, h⟩ := bind_eq_ok.mp h
      obtain ⟨⟨others, c₂⟩, hothers, rfl, rfl⟩ := bind_pure_pair h
      obtain ⟨ks₁, hmove₁, hks₁⟩ := func_spells hlast hfirst
      obtain ⟨⟨ks₂, hmove₂, hks₂⟩, hend⟩ := funcs_spells d (hmove₁.last_eof hlast) hothers
      exact ⟨⟨ks₁ ++ ks₂, hmove₁.trans hmove₂, .cons hks₁ hks₂⟩, hend⟩

end Chordal.Syntax
