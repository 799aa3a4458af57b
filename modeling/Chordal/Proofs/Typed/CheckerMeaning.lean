/-
# The checker keeps the meaning of a program

A run of a function as it is written and a run of the typed tree that the checker
makes of it go side by side. The variables that can be named stand in the same
order as the visible symbols, and where the checker knows that a symbol is
assigned, both runs have the same word for it (`Agrees`). Where it does not know,
they may differ: a declaration in a loop begins a new variable each time, while the
typed run still has what the last round left behind.

Statements leave the same way on both sides (`Matches`). A `break` is compared with
what is known before the statement, a `continue` with the flow state that the
checker keeps for it: what is known before a loop is known in all of its rounds and
behind it, since nothing that is known gets lost in a statement (`Stmt.reads_subset`).

Key definitions: `Agrees`, `Corresponds`, `Matches`.
Key theorems: `checkExpr_eval`, `checkSimple_exec`, `loop_corresponds`, `checkStmt_exec`.
-/
import Mathlib
import Chordal.Proofs.Compilation
import Chordal.Proofs.Syntax.Meaning
import Chordal.Proofs.Typed.Meaning
import Chordal.Proofs.Typed.Typing

namespace Chordal.Typed

open Syntax (Env)

/-! ### What is known is not lost -/

namespace Flow

variable {flow flow' : Flow}

theorem subset_reads_foldl_join {J : Set Nat} : ∀ {flows : List Flow} {flow : Flow}, J ⊆ flow.reads →
    (∀ f ∈ flows, J ⊆ f.reads) → J ⊆ (flows.foldl join flow).reads
  | [], _, h, _ => h
  | f :: flows, flow, h, hall => by
    have hjoin : J ⊆ (flow.join f).reads := by
      rw [reads_join]
      exact Set.subset_inter h (hall f List.mem_cons_self)
    rw [List.foldl_cons]
    exact subset_reads_foldl_join hjoin fun g hg => hall g (List.mem_cons_of_mem f hg)

theorem reads_subset_assign (flow : Flow) (j : Nat) : flow.reads ⊆ (flow.assign j).reads := by
  intro k hk
  change flow.isAssigned k = true at hk
  change (flow.assign j).isAssigned k = true
  simp only [isAssigned, assign, Bool.or_eq_true, Bool.not_eq_true', List.contains_iff_mem, List.mem_cons] at hk ⊢
  tauto

/-- Only finitely many variables are assigned where control can be. -/
theorem live_of_reads_subset (hlive : flow.live = true) (h : flow'.reads ⊆ flow.reads) : flow'.live = true := by
  by_contra hdead
  rw [reads_of_not_live (by simpa using hdead)] at h
  obtain ⟨j, hj⟩ := Infinite.exists_notMem_finset flow.assigned.toFinset
  have hread : flow.isAssigned j = true := h (Set.mem_univ j)
  simp only [isAssigned, hlive, Bool.not_true, Bool.false_or, List.contains_iff_mem] at hread
  exact hj (List.mem_toFinset.mpr hread)

end Flow

theorem Flow.reads_subset_dead (flow : Flow) : flow.reads ⊆ Flow.dead.reads := by
  rw [reads_of_not_live (show Flow.dead.live = false from rfl)]
  exact Set.subset_univ _

mutual

/-- What is known before a statement is known behind it, and where it is left by
`continue`. -/
theorem Stmt.reads_subset : ∀ (s : Stmt) {inLoop : Bool} {flow flow' : Flow} {new : List Flow},
    s.Flows inLoop flow flow' new → flow.reads ⊆ flow'.reads ∧ ∀ f ∈ new, flow.reads ⊆ f.reads
  | .declare _ none, _, _, _, _, .declare => ⟨subset_rfl, by simp⟩
  | .declare _ (some _), _, flow, _, _, .init _ => ⟨flow.reads_subset_assign _, by simp⟩
  | .assign _ _, _, flow, _, _, .assign _ => ⟨flow.reads_subset_assign _, by simp⟩
  | .expr _, _, _, _, _, .expr _ => ⟨subset_rfl, by simp⟩
  | .return_ _, _, flow, _, _, .return_ _ => ⟨flow.reads_subset_dead, by simp⟩
  | .break_, _, flow, _, _, .break_ => ⟨flow.reads_subset_dead, by simp⟩
  | .continue_, _, flow, _, _, .continue_ => ⟨flow.reads_subset_dead, by simp⟩
  | .block body, _, _, _, _, .block hbody => reads_subset_all body hbody
  | .ifElse _ t none, _, _, _, _, .ifThen _ ht => by
    obtain ⟨hsub, hnew⟩ := reads_subset_all t ht
    rw [Flow.reads_join]
    exact ⟨Set.subset_inter hsub subset_rfl, hnew⟩
  | .ifElse _ t (some e), _, _, _, _, .ifElse _ ht he => by
    obtain ⟨hsub₁, hnew₁⟩ := reads_subset_all t ht
    obtain ⟨hsub₂, hnew₂⟩ := reads_subset_all e he
    rw [Flow.reads_join]
    refine ⟨Set.subset_inter hsub₁ hsub₂, fun f hf => ?_⟩
    exact (List.mem_append.mp hf).elim (hnew₁ f) (hnew₂ f)
  | .while_ _ _ none, _, _, _, _, .loop _ _ => ⟨subset_rfl, by simp⟩
  | .while_ _ _ (some _), _, _, _, _, .stepLoop _ _ _ => ⟨subset_rfl, by simp⟩

theorem reads_subset_all : ∀ (l : List Stmt) {inLoop : Bool} {flow flow' : Flow} {new : List Flow},
    AllFlow inLoop flow l flow' new → flow.reads ⊆ flow'.reads ∧ ∀ f ∈ new, flow.reads ⊆ f.reads
  | [], _, _, _, _, .nil => ⟨subset_rfl, by simp⟩
  | s :: rest, _, _, _, _, .cons hs hrest => by
    obtain ⟨hsub₁, hnew₁⟩ := s.reads_subset hs
    obtain ⟨hsub₂, hnew₂⟩ := reads_subset_all rest hrest
    refine ⟨hsub₁.trans hsub₂, fun f hf => ?_⟩
    rcases List.mem_append.mp hf with hf | hf
    · exact hnew₁ f hf
    · exact hsub₁.trans (hnew₂ f hf)

end

/-! ### Variables by name and by number -/

/-- A variable that can be named goes with a symbol: it has its name, and its content
if the symbol is known to be assigned. -/
def Entry (flow : Flow) (σ : Vars) (s : Symbol) (x : String × Option Word) : Prop :=
  x.1 = s.name ∧ (flow.isAssigned s.id = true → ∃ w, x.2 = some w ∧ σ s.id = some w)

variable {σ : Vars} {ρ : Env}

/-- Assigning another symbol leaves an entry as it is. -/
theorem Entry.assign_ne {flow : Flow} {s : Symbol} {x : String × Option Word} {id : Nat} {w : Word}
    (h : Entry flow σ s x) (hne : s.id ≠ id) : Entry (flow.assign id) (σ.set id w) s x := by
  refine ⟨h.1, fun hread => ?_⟩
  rcases flow.reads_assign id hread with heq | hread
  · exact absurd heq hne
  · obtain ⟨v, hv, hσ⟩ := h.2 hread
    exact ⟨v, hv, by rw [Vars.set, if_neg hne, hσ]⟩

theorem forall₂_kept {flow : Flow} {visible : List Symbol} {id : Nat} {w : Word}
    (hid : id ∉ visible.map Symbol.id) (h : List.Forall₂ (Entry flow σ) visible ρ) :
    List.Forall₂ (Entry (flow.assign id) (σ.set id w)) visible ρ := by
  induction h with
  | nil => exact .nil
  | cons hx _ ih =>
    rw [List.map_cons, List.mem_cons, not_or] at hid
    exact .cons (hx.assign_ne (Ne.symm hid.1)) (ih hid.2)

/-- Control can be here, and the variables that can be named go with the visible
symbols. -/
structure Agrees (flow : Flow) (visible : List Symbol) (ρ : Env) (σ : Vars) : Prop where
  live : flow.live = true
  entries : List.Forall₂ (Entry flow σ) visible ρ

/-- The variables go with what the checker knows in the context. -/
abbrev Context.Agrees (ctx : Context) : Env → Vars → Prop := Typed.Agrees ctx.flow ctx.visible

namespace Agrees

variable {flow flow' : Flow} {visible : List Symbol} {ρ : Env} {σ : Vars}

theorem start : Agrees .start [] [] Vars.none := ⟨rfl, .nil⟩

theorem weaken (h : Agrees flow visible ρ σ) (hsub : flow'.reads ⊆ flow.reads) : Agrees flow' visible ρ σ :=
  ⟨Flow.live_of_reads_subset h.live hsub, h.entries.imp fun _ _ hx => ⟨hx.1, fun hread => hx.2 (hsub hread)⟩⟩

/-- At the end of a scope, the oldest variables go with the symbols from before it. -/
theorem oldest {outer : List Symbol} (h : Agrees flow visible ρ σ) (hsuffix : outer <:+ visible) :
    Agrees flow outer (ρ.oldest outer.length) σ := by
  obtain ⟨inner, rfl⟩ := hsuffix
  refine ⟨h.live, ?_⟩
  have hdrop := List.forall₂_drop inner.length h.entries
  have hlen := h.entries.length_eq
  rw [List.length_append] at hlen
  rw [List.drop_left] at hdrop
  rw [Env.oldest, show ρ.length - outer.length = inner.length by omega]
  exact hdrop

theorem length_eq (h : Agrees flow visible ρ σ) : ρ.length = visible.length := h.entries.length_eq.symm

end Agrees

section Names

variable {ctx : Context} {ρ : Env} {σ : Vars}

theorem forall₂_lookup {flow : Flow} {name : String} : ∀ {visible : List Symbol} {ρ : Env} {s : Symbol},
    List.Forall₂ (Entry flow σ) visible ρ → (visible.find? fun s => s.name == name) = some s →
    ∃ content, ρ.lookup name = some content ∧ Entry flow σ s (name, content)
  | t :: visible, x :: ρ, s, .cons hx hrest, hfind => by
    by_cases hname : t.name = name
    · rw [List.find?_cons_of_pos (by simpa using hname)] at hfind
      obtain rfl := Option.some.inj hfind
      obtain ⟨y, content⟩ := x
      obtain rfl : y = name := hx.1.trans hname
      exact ⟨content, List.lookup_cons_self, hx⟩
    · rw [List.find?_cons_of_neg (by simpa using hname)] at hfind
      obtain ⟨content, hlookup, hentry⟩ := forall₂_lookup hrest hfind
      refine ⟨content, ?_, hentry⟩
      obtain ⟨y, c⟩ := x
      have hne : (name == y) = false := by
        rw [beq_eq_false_iff_ne, show y = t.name from hx.1]
        exact Ne.symm hname
      rw [List.lookup_cons, hne]
      exact hlookup

/-- A symbol that may be read has the same word on both sides. -/
theorem Agrees.read (h : ctx.Agrees ρ σ) {p : Span} {name : String} {s : Symbol}
    (hs : ctx.lookup p name = .ok s) (hread : ctx.flow.isAssigned s.id = true) :
    ∃ w, ρ.read name = .ok w ∧ σ s.id = some w := by
  obtain ⟨content, hlookup, -, hcontent⟩ := forall₂_lookup h.entries (find_of_lookup hs)
  obtain ⟨w, hw, hσ⟩ := hcontent hread
  simp only at hw
  subst hw
  exact ⟨w, by rw [Env.read, hlookup], hσ⟩

theorem forall₂_write {flow : Flow} {name : String} {w : Word} : ∀ {visible : List Symbol} {ρ : Env} {s : Symbol},
    List.Forall₂ (Entry flow σ) visible ρ → (visible.map Symbol.id).Nodup →
    (visible.find? fun s => s.name == name) = some s →
    ∃ ρ', ρ.write name w = .ok ρ' ∧ List.Forall₂ (Entry (flow.assign s.id) (σ.set s.id w)) visible ρ'
  | t :: visible, x :: ρ, s, .cons hx hrest, hnodup, hfind => by
    rw [List.map_cons, List.nodup_cons] at hnodup
    obtain ⟨y, content⟩ := x
    by_cases hname : t.name = name
    · rw [List.find?_cons_of_pos (by simpa using hname)] at hfind
      obtain rfl := Option.some.inj hfind
      have hy : y = name := hx.1.trans hname
      refine ⟨(y, some w) :: ρ, by rw [Env.write, if_pos hy], .cons ⟨hx.1, fun _ => ⟨w, rfl, by simp [Vars.set]⟩⟩ ?_⟩
      exact forall₂_kept hnodup.1 hrest
    · rw [List.find?_cons_of_neg (by simpa using hname)] at hfind
      obtain ⟨ρ', hwrite, hentries⟩ := forall₂_write (w := w) hrest hnodup.2 hfind
      have hy : y ≠ name := fun hy => hname (hx.1.symm.trans hy)
      have hne : t.id ≠ s.id := fun heq =>
        hnodup.1 (heq ▸ List.mem_map_of_mem (List.mem_of_find?_eq_some hfind))
      refine ⟨(y, content) :: ρ', ?_, .cons (hx.assign_ne hne) hentries⟩
      rw [Env.write, if_neg hy, hwrite]
      rfl

end Names

/-! ### Expressions -/

/-- Both sides have the same word, or fail by the same division. -/
inductive SameValue : Except Syntax.Stop Word → Except Stop Word → Prop
  | ok (w : Word) : SameValue (.ok w) (.ok w)
  | division (fault : DivisionFault) : SameValue (.error (.division fault)) (.error (.division fault))

theorem sameValue_binary (op : BinaryOp) {a a' : Except Syntax.Stop Word} {l r : Expr}
    (hl : SameValue a (l.eval σ)) (hr : SameValue a' (r.eval σ)) :
    SameValue (do Syntax.runBinary op (← a) (← a')) ((Expr.binary op l r).eval σ) := by
  rw [Expr.eval]
  generalize l.eval σ = b at hl
  generalize r.eval σ = b' at hr
  cases hl with
  | division fault => exact .division fault
  | ok w =>
    cases hr with
    | division fault => exact .division fault
    | ok w' =>
      change SameValue ((op.apply w w').mapError .division) _
      dsimp only
      cases op.apply w w' with
      | ok v => exact .ok v
      | error fault => exact .division fault

/-- An expression and the typed expression that the checker makes of it have the same
value. -/
theorem checkExpr_eval {ctx : Context} (h : ctx.Agrees ρ σ) :
    ∀ (e : Syntax.Expr) {e' : Expr}, checkExpr ctx e = .ok e' → SameValue (e.eval ρ) (e'.eval σ)
  | .int _ value, _, he => by
    obtain rfl := Except.ok.inj he
    exact .ok value
  | .bool _ value, _, he => by
    obtain rfl := Except.ok.inj he
    exact .ok (Word.ofBool value)
  | .var p name, _, he => by
    obtain ⟨s, hs, hread, rfl⟩ := checkExpr_var_inv he
    obtain ⟨w, hw, hσ⟩ := h.read hs hread
    rw [Syntax.Expr.eval, hw, Expr.eval, hσ]
    exact .ok w
  | .unary _ op operand, _, he => by
    obtain ⟨e, hoperand, -, rfl⟩ := checkExpr_unary_inv he
    have ih := checkExpr_eval h operand hoperand
    rw [Syntax.Expr.eval, Expr.eval]
    generalize operand.eval ρ = a at ih
    generalize e.eval σ = b at ih
    cases ih with
    | ok w => exact .ok (op.apply w)
    | division fault => exact .division fault
  | .binary _ op left right, _, he => by
    obtain ⟨l, r, hl, hr, -, rfl⟩ := checkExpr_binary_inv he
    exact sameValue_binary op (checkExpr_eval h left hl) (checkExpr_eval h right hr)
  | .ternary _ condition ifTrue ifFalse, _, he => by
    obtain ⟨c, t, e, hc, ht, hf, -, -, rfl⟩ := checkExpr_ternary_inv he
    have ih := checkExpr_eval h condition hc
    rw [Syntax.Expr.eval, Expr.eval]
    generalize condition.eval ρ = a at ih
    generalize c.eval σ = b at ih
    cases ih with
    | division fault => exact .division fault
    | ok w =>
      change SameValue (if w != 0 then ifTrue.eval ρ else ifFalse.eval ρ) (if w != 0 then t.eval σ else e.eval σ)
      by_cases hw : (w != 0) = true
      · rw [if_pos hw, if_pos hw]
        exact checkExpr_eval h ifTrue ht
      · rw [if_neg hw, if_neg hw]
        exact checkExpr_eval h ifFalse hf

theorem checkTyped_eval {ctx : Context} (h : ctx.Agrees ρ σ) {wanted : Ty} {e : Syntax.Expr}
    {e' : Expr} (he : checkTyped ctx wanted e = .ok e') : SameValue (e.eval ρ) (e'.eval σ) :=
  checkExpr_eval h e (checkTyped_inv he).1

/-! ### Exits -/

/-- Both sides leave a statement the same way, with variables as the conditions for
that way ask for. -/
inductive Corresponds (next broke continued : Env → Vars → Prop) : Syntax.Exit → Exit → Prop
  | next {ρ : Env} {σ : Vars} : next ρ σ → Corresponds next broke continued (.next ρ) (.next σ)
  | broke {ρ : Env} {σ : Vars} : broke ρ σ → Corresponds next broke continued (.broke ρ) (.broke σ)
  | continued {ρ : Env} {σ : Vars} : continued ρ σ → Corresponds next broke continued (.continued ρ) (.continued σ)
  | returned (w : Word) : Corresponds next broke continued (.returned w) (.returned w)
  | stopped (fault : DivisionFault) :
      Corresponds next broke continued (.stopped (.division fault)) (.stopped (.division fault))

/-- No variables are like this: control does not leave in the way in question. -/
def Never (_ : Env) (_ : Vars) : Prop := False

/-- Both sides go on in the same way, with variables as `next` asks for, or stop. -/
abbrev GoesOn (next : Env → Vars → Prop) : Option Syntax.Exit → Option Exit → Prop :=
  Option.Rel (Corresponds next Never Never)

section Exits

variable {N N' B B' C C' : Env → Vars → Prop}

theorem Corresponds.imp {o : Syntax.Exit} {o' : Exit} (h : Corresponds N B C o o') (hN : ∀ ρ σ, N ρ σ → N' ρ σ)
    (hB : ∀ ρ σ, B ρ σ → B' ρ σ) (hC : ∀ ρ σ, C ρ σ → C' ρ σ) : Corresponds N' B' C' o o' := by
  cases h with
  | next hx => exact .next (hN _ _ hx)
  | broke hx => exact .broke (hB _ _ hx)
  | continued hx => exact .continued (hC _ _ hx)
  | returned w => exact .returned w
  | stopped fault => exact .stopped fault

theorem rel_imp {R S : Syntax.Exit → Exit → Prop} {o : Option Syntax.Exit} {o' : Option Exit} (h : Option.Rel R o o')
    (himp : ∀ x y, R x y → S x y) : Option.Rel S o o' := by
  cases h with
  | none => exact .none
  | some hx => exact .some (himp _ _ hx)

/-- At the end of a scope that began with `n` variables. -/
theorem Corresponds.endScope {o : Syntax.Exit} {o' : Exit} {n : Nat} (h : Corresponds N B C o o')
    (hN : ∀ ρ σ, N ρ σ → N' (ρ.oldest n) σ) (hB : ∀ ρ σ, B ρ σ → B' (ρ.oldest n) σ)
    (hC : ∀ ρ σ, C ρ σ → C' (ρ.oldest n) σ) : Corresponds N' B' C' (o.endScope n) o' := by
  cases h with
  | next hx => exact .next (hN _ _ hx)
  | broke hx => exact .broke (hB _ _ hx)
  | continued hx => exact .continued (hC _ _ hx)
  | returned w => exact .returned w
  | stopped fault => exact .stopped fault

theorem choose_corresponds {c : Except Syntax.Stop Word} {c' : Except Stop Word} {t e : Option Syntax.Exit}
    {t' e' : Option Exit} (hc : SameValue c c') (ht : Option.Rel (Corresponds N B C) t t')
    (he : Option.Rel (Corresponds N B C) e e') :
    Option.Rel (Corresponds N B C) (Syntax.choose c t e) (choose c' t' e') := by
  cases hc with
  | division fault => exact .some (.stopped fault)
  | ok w =>
    unfold Syntax.choose choose
    dsimp only
    by_cases hw : (w != 0) = true
    · rw [if_pos hw, if_pos hw]
      exact ht
    · rw [if_neg hw, if_neg hw]
      exact he

/-- Loops go side by side: `I` holds at every test, and `J` before every step. -/
theorem loop_corresponds {I J : Env → Vars → Prop} {test : Env → Except Syntax.Stop Word}
    {body : Env → Option Syntax.Exit} {step : Env → Except Syntax.Stop Env} {test' : Vars → Except Stop Word}
    {body' step' : Vars → Option Exit} (htest : ∀ ρ σ, I ρ σ → SameValue (test ρ) (test' σ))
    (hbody : ∀ ρ σ, I ρ σ → Option.Rel (Corresponds J I J) (body ρ) (body' σ))
    (hstep : ∀ ρ σ, J ρ σ → GoesOn I (some (.after (step ρ))) (step' σ)) :
    ∀ (rounds : Nat) (ρ : Env) (σ : Vars), I ρ σ →
      GoesOn I (Syntax.loop test body step rounds ρ) (loop test' body' step' rounds σ)
  | 0, _, _, _ => .none
  | rounds + 1, ρ, σ, hI => by
    rw [Syntax.loop, loop]
    refine choose_corresponds (htest ρ σ hI) ?_ (.some (.next hI))
    have h := hbody ρ σ hI
    generalize body ρ = o at h
    generalize body' σ = o' at h
    cases h with
    | none => exact .none
    | some h =>
      cases h with
      | @next ρ₁ σ₁ hJ | @continued ρ₁ σ₁ hJ =>
        -- the body has been run, the step comes next
        have h := hstep ρ₁ σ₁ hJ
        dsimp only
        generalize step ρ₁ = r at h
        generalize step' σ₁ = o at h
        cases r with
        | ok ρ₂ =>
          cases h with
          | some h =>
            cases h with
            | next hI₂ => exact loop_corresponds htest hbody hstep rounds ρ₂ _ hI₂
        | error e =>
          cases h with
          | some h =>
            cases h with
            | stopped fault => exact .some (.stopped fault)
      | broke hI₁ => exact .some (.next hI₁)
      | returned w => exact .some (.returned w)
      | stopped fault => exact .some (.stopped fault)

end Exits

/-! ### Simple statements -/

section Simple

variable {ctx ctx' : Context} {ρ : Env} {σ : Vars}

variable {p : Span} {name : String} {s : Symbol}

/-- An assignment to a visible name writes the variable of its symbol. -/
theorem Agrees.write (hr : ctx.Regular) (h : ctx.Agrees ρ σ) (hs : ctx.lookup p name = .ok s)
    (w : Word) : ∃ ρ', ρ.write name w = .ok ρ' ∧ (ctx.assign s).Agrees ρ' (σ.set s.id w) := by
  obtain ⟨ρ', hwrite, hentries⟩ := forall₂_write (w := w) h.entries hr.proper.ids (find_of_lookup hs)
  exact ⟨ρ', hwrite, h.live, hentries⟩

theorem store_corresponds (hr : ctx.Regular) (h : ctx.Agrees ρ σ) (hs : ctx.lookup p name = .ok s)
    {a : Except Syntax.Stop Word} {e : Expr} (ha : SameValue a (e.eval σ)) :
    Corresponds (ctx.assign s).Agrees Never Never (.after (a >>= ρ.write name))
      (store s.id e σ) := by
  unfold store
  generalize e.eval σ = b at ha
  cases ha with
  | division fault => exact .stopped fault
  | ok w =>
    obtain ⟨ρ', hwrite, hagrees⟩ := h.write hr hs w
    change Corresponds _ _ _ (.after (ρ.write name w)) _
    rw [hwrite]
    exact .next hagrees

/-- A compound assignment reads its variable, which has the same word on both sides,
and stores what the operator makes of it. -/
theorem compound_corresponds (h : ctx.Agrees ρ σ) (hs : ctx.lookup p name = .ok s) {op : BinaryOp}
    {rhs e : Expr} (he : compound ctx p s op rhs = .ok e) {a : Except Syntax.Stop Word}
    (ha : SameValue a (rhs.eval σ)) :
    ∃ w, ρ.read name = .ok w ∧ SameValue (do Syntax.runBinary op w (← a)) (e.eval σ) := by
  obtain ⟨-, -, hread, rfl⟩ := compound_inv he
  obtain ⟨w, hw, hσ⟩ := h.read hs hread
  have hvar : SameValue (.ok w) ((Expr.var s).eval σ) := by
    rw [Expr.eval, hσ]
    exact .ok w
  exact ⟨w, hw, sameValue_binary op hvar ha⟩

section

variable {ty : Ty} (hr : ctx.Regular) (h : ctx.Agrees ρ σ)
  (hd : ctx.declare p name ty = .ok (s, ctx'))

include hr h hd

/-- A new symbol is not known to be assigned, so it may go with a variable without
content. -/
theorem Agrees.declare : ctx'.Agrees ((name, none) :: ρ) σ := by
  obtain ⟨-, rfl, rfl⟩ := declare_inv hd
  refine ⟨h.live, .cons ⟨rfl, fun hread => ?_⟩ h.entries⟩
  simp only [Flow.isAssigned, h.live, Bool.not_true, Bool.false_or, List.contains_iff_mem] at hread
  exact absurd (hr.assigned_lt _ hread) (lt_irrefl _)

/-- A new symbol with an initial value. -/
theorem Agrees.init (w : Word) : (ctx'.assign s).Agrees ((name, some w) :: ρ) (σ.set s.id w) := by
  obtain ⟨-, rfl, rfl⟩ := declare_inv hd
  have hnew : ctx.nextSymbol ∉ ctx.visible.map Symbol.id := by
    intro hmem
    obtain ⟨t, ht, heq⟩ := List.mem_map.mp hmem
    exact absurd (hr.proper.id_lt t ht) (by omega)
  exact ⟨h.live, .cons ⟨rfl, fun _ => ⟨w, rfl, by simp [Vars.set]⟩⟩ (forall₂_kept hnew h.entries)⟩

end

/-- A simple statement and the typed statement that the checker makes of it do the
same. -/
theorem checkSimple_exec (hr : ctx.Regular) (h : ctx.Agrees ρ σ) {s : Syntax.Simple} {t : Stmt}
    (hs : checkSimple ctx s = .ok (t, ctx')) (fuel : Nat) :
    GoesOn ctx'.Agrees (some (.after (s.exec ρ))) (t.exec fuel σ) := by
  cases s with
  | declare p ty name init =>
    cases init with
    | none =>
      obtain ⟨s, hd, rfl⟩ := checkSimple_declare_inv hs
      rw [Stmt.exec]
      exact .some (.next (h.declare hr hd))
    | some e =>
      obtain ⟨e', s, ctx₁, he, hd, rfl, rfl⟩ := checkSimple_init_inv hs
      rw [Stmt.exec, Syntax.Simple.exec]
      have hval := checkTyped_eval h he
      unfold store
      generalize e.eval ρ = a at hval
      generalize e'.eval σ = b at hval
      cases hval with
      | ok w => exact .some (.next (h.init hr hd w))
      | division fault => exact .some (.stopped fault)
  | assign p name op value =>
    cases op with
    | none =>
      obtain ⟨s, e, hlookup, he, rfl, rfl⟩ := checkSimple_assign_inv hs
      rw [Stmt.exec, Syntax.Simple.exec]
      exact .some (store_corresponds hr h hlookup (checkTyped_eval h he))
    | some op =>
      obtain ⟨s, rhs, e, hlookup, hrhs, he, rfl, rfl⟩ := checkSimple_compound_inv hs
      obtain ⟨w, hw, hval⟩ := compound_corresponds h hlookup he (checkExpr_eval h value hrhs)
      rw [Stmt.exec, Syntax.Simple.exec, hw]
      have hstore := store_corresponds hr h hlookup hval
      simp only [bind_assoc] at hstore
      exact .some hstore
  | count p name direction =>
    obtain ⟨s, e, hlookup, he, rfl, rfl⟩ := checkSimple_count_inv hs
    have hone : SameValue (.ok 1) ((Expr.int 1).eval σ) := .ok 1
    obtain ⟨w, hw, hval⟩ := compound_corresponds h hlookup he hone
    have hstore := store_corresponds hr h hlookup hval
    rw [Stmt.exec]
    cases direction with
    | up | down =>
      rw [Syntax.Simple.exec, hw]
      exact .some hstore
  | expr p value =>
    obtain ⟨e, he, rfl, rfl⟩ := checkSimple_expr_inv hs
    rw [Stmt.exec, Syntax.Simple.exec]
    have hval := checkExpr_eval h value he
    generalize value.eval ρ = a at hval
    generalize e.eval σ = b at hval
    cases hval with
    | ok w => exact .some (.next h)
    | division fault => exact .some (.stopped fault)

end Simple

/-! ### Contexts that follow one another -/

/-- `ctx'` is a context further on in the same loop: more is visible, more is known,
and more `continue` statements have been seen. -/
structure Later (ctx ctx' : Context) : Prop where
  visible : ctx.visible <:+ ctx'.visible
  reads : ctx.flow.reads ⊆ ctx'.flow.reads
  inLoop : ctx'.continues.isSome = ctx.continues.isSome
  continues : ctx.continues.getD [] ⊆ ctx'.continues.getD []

section Later

variable {returns : Ty} {ctx ctx' : Context}

theorem Stmt.suffix_scope (Γ : List Symbol) (t : Stmt) : Γ <:+ t.scope Γ := by
  cases t with
  | declare symbol init => exact List.suffix_cons symbol Γ
  | assign | ifElse | while_ | break_ | continue_ | return_ | block | expr => exact List.suffix_rfl

theorem suffix_foldl_scope : ∀ (l : List Stmt) (Γ : List Symbol), Γ <:+ l.foldl Stmt.scope Γ
  | [], _ => List.suffix_rfl
  | t :: l, Γ => (t.suffix_scope Γ).trans (suffix_foldl_scope l (t.scope Γ))

theorem subset_continues {new : List Flow} (h : ctx'.continues = ctx.continues.map (· ++ new)) :
    ctx.continues.getD [] ⊆ ctx'.continues.getD [] := by
  rw [h]
  cases ctx.continues with
  | none => exact List.Subset.refl _
  | some flows => exact List.subset_append_left flows new

section

variable {t : Stmt} {s : Syntax.Stmt} (hr : ctx.Regular)
  (h : checkStmt returns s ctx = .ok (t, ctx'))

include hr h

theorem checkStmt_regular : ctx'.Regular :=
  (checkStmt_delivers s hr h).regular

theorem checkStmt_later : Later ctx ctx' := by
  have hd := checkStmt_delivers s hr h
  obtain ⟨new, hnew, hflows⟩ := checkStmt_flows s h
  exact ⟨hd.visible ▸ t.suffix_scope ctx.visible, (t.reads_subset hflows).1, hd.continues, subset_continues hnew⟩

end

theorem checkStmts_later (hr : ctx.Regular) {body : List Syntax.Stmt} {t : List Stmt}
    (h : checkStmts returns body ctx = .ok (t, ctx')) : Later ctx ctx' := by
  have hd := checkStmts_delivers body hr h
  obtain ⟨new, hnew, hflows⟩ := checkStmts_flows body h
  exact ⟨hd.visible ▸ suffix_foldl_scope t ctx.visible, (reads_subset_all t hflows).1, hd.continues,
    subset_continues hnew⟩

end Later

/-! ### Statements -/

/-- How the two sides leave a statement that the checker passes from `ctx` to `ctx'`.
Where it is left by a jump, the variables from before the statement are compared. -/
def Matches (ctx ctx' : Context) : Syntax.Exit → Exit → Prop :=
  Corresponds ctx'.Agrees
    (fun ρ σ => ctx.continues.isSome = true ∧ ctx.Agrees (ρ.oldest ctx.visible.length) σ)
    (fun ρ σ => ∃ flow ∈ ctx'.continues.getD [], Agrees flow ctx.visible (ρ.oldest ctx.visible.length) σ)

section Statements

variable {ctx ctx₁ ctx₂ : Context} {ρ : Env} {σ : Vars}

theorem Agrees.oldest_oldest {flow : Flow} {outer inner : List Symbol}
    (h : Agrees flow inner (ρ.oldest inner.length) σ) (hsuffix : outer <:+ inner) :
    Agrees flow outer (ρ.oldest outer.length) σ := by
  rw [← Env.oldest_oldest hsuffix.length_le ρ]
  exact h.oldest hsuffix

/-- A statement is left as its first part is, if not to the next one. -/
theorem Matches.first {o : Syntax.Exit} {o' : Exit} (h : Matches ctx ctx₁ o o') (hl : Later ctx₁ ctx₂)
    (hnext : ∀ ρ, o ≠ .next ρ) : Matches ctx ctx₂ o o' := by
  cases h with
  | @next ρ σ hx => exact absurd rfl (hnext ρ)
  | broke hx => exact .broke hx
  | continued hx =>
    obtain ⟨flow, hflow, hagrees⟩ := hx
    exact .continued ⟨flow, hl.continues hflow, hagrees⟩
  | returned w => exact .returned w
  | stopped fault => exact .stopped fault

/-- A statement is left as its last part is. -/
theorem Matches.last {o : Syntax.Exit} {o' : Exit} (h : Matches ctx₁ ctx₂ o o') (hl : Later ctx ctx₁) :
    Matches ctx ctx₂ o o' := by
  refine h.imp (fun _ _ hx => hx) ?_ ?_
  · rintro ρ σ ⟨hloop, hagrees⟩
    exact ⟨hl.inLoop ▸ hloop, (hagrees.oldest_oldest hl.visible).weaken hl.reads⟩
  · rintro ρ σ ⟨flow, hflow, hagrees⟩
    exact ⟨flow, hflow, hagrees.oldest_oldest hl.visible⟩

theorem rel_inScope {R S : Syntax.Exit → Exit → Prop} {run : Env → Option Syntax.Exit} {o' : Option Exit}
    (h : Option.Rel R (run ρ) o') (himp : ∀ x y, R x y → S (x.endScope ρ.length) y) :
    Option.Rel S (Syntax.inScope ρ run) o' := by
  unfold Syntax.inScope
  generalize run ρ = o at h
  cases h with
  | none => exact .none
  | some hx => exact .some (himp _ _ hx)

/-- The end of the scope of a nested statement. -/
theorem Matches.endScope {inner outer : Context} {o : Syntax.Exit} {o' : Exit} (h : Matches ctx inner o o')
    (hl : ctx.visible <:+ inner.visible) (hvisible : outer.visible = ctx.visible)
    (hflow : outer.flow.reads ⊆ inner.flow.reads) (hcontinues : inner.continues.getD [] ⊆ outer.continues.getD []) :
    Matches ctx outer (o.endScope ctx.visible.length) o' := by
  refine Corresponds.endScope h ?_ ?_ ?_
  · intro ρ σ hx
    rw [Context.Agrees, hvisible]
    exact (hx.oldest hl).weaken hflow
  · rintro ρ σ ⟨hloop, hagrees⟩
    rw [Env.oldest_oldest le_rfl]
    exact ⟨hloop, hagrees⟩
  · rintro ρ σ ⟨flow, hmem, hagrees⟩
    rw [Env.oldest_oldest le_rfl]
    exact ⟨flow, hcontinues hmem, hagrees⟩

theorem execAll_singleton (fuel : Nat) (t : Stmt) (σ : Vars) : execAll fuel [t] σ = t.exec fuel σ := by
  rw [execAll]
  cases t.exec fuel σ with
  | none => rfl
  | some o =>
    cases o with
    | next σ =>
      change execAll fuel [] σ = _
      rw [execAll]
    | broke | continued | returned | stopped => rfl

theorem execAll_append (fuel : Nat) : ∀ (l l' : List Stmt) (σ : Vars), execAll fuel (l ++ l') σ =
    match execAll fuel l σ with
    | some (.next σ) => execAll fuel l' σ
    | other => other
  | [], l', σ => by rw [List.nil_append, execAll.eq_def fuel []]
  | t :: l, l', σ => by
    rw [List.cons_append, execAll.eq_def fuel (t :: _), execAll.eq_def fuel (t :: l)]
    dsimp only
    cases t.exec fuel σ with
    | none => rfl
    | some o =>
      cases o with
      | next σ => exact execAll_append fuel l l' σ
      | broke | continued | returned | stopped => rfl

theorem execAll_bodyOf (fuel : Nat) (s : Syntax.Stmt) (t : Stmt) (σ : Vars) :
    execAll fuel (bodyOf s t) σ = t.exec fuel σ := by
  unfold bodyOf
  split
  · rw [Stmt.exec]
  · exact execAll_singleton fuel t σ

theorem checkOptional_exec (hr : ctx.Regular) (h : ctx.Agrees ρ σ) {s : Option Syntax.Simple}
    {t : List Stmt} (hs : checkOptional ctx s = .ok (t, ctx₁)) (fuel : Nat) :
    GoesOn ctx₁.Agrees (some (.after (Syntax.execOptional ρ s)))
      (execAll fuel t σ) := by
  cases s with
  | none =>
    obtain ⟨rfl, rfl⟩ := checkOptional_none_inv hs
    rw [execAll]
    exact .some (.next h)
  | some s =>
    obtain ⟨t, ht, rfl⟩ := checkOptional_some_inv hs
    rw [execAll_singleton]
    exact checkSimple_exec hr h ht fuel

end Statements

/-! ### Loops -/

section Loops

variable {returns : Ty} {ctx inner : Context}

/-- What is known before a loop is known where its body ends. -/
theorem reads_subset_endOfBody {s : Syntax.Stmt} {b : Stmt}
    (h : checkStmt returns s { ctx with continues := some [] } = .ok (b, inner)) :
    ctx.flow.reads ⊆ inner.endOfBody.reads := by
  obtain ⟨hsub, hnew⟩ := b.reads_subset (checkStmt_flows s h).body
  exact Flow.subset_reads_foldl_join hsub hnew

/-- The body of a loop ends with what the checker knows at its end, by `continue` too,
and a `break` leaves it with what was known before. -/
theorem body_corresponds (hr : ctx.Regular) {s : Syntax.Stmt} {b : Stmt}
    (h : checkStmt returns s { ctx with continues := some [] } = .ok (b, inner)) {fuel : Nat} {ρ : Env} {σ : Vars}
    (hagrees : ctx.Agrees ρ σ)
    (ih : Option.Rel (Matches { ctx with continues := some [] } inner) (s.exec fuel ρ) (b.exec fuel σ)) :
    Option.Rel (Corresponds (Agrees inner.endOfBody ctx.visible) ctx.Agrees (Agrees inner.endOfBody ctx.visible))
      (Syntax.inScope ρ fun ρ => s.exec fuel ρ) (execAll fuel (bodyOf s b) σ) := by
  rw [execAll_bodyOf]
  have hvisible : ctx.visible <:+ inner.visible := (checkStmt_later hr.enterLoop h).visible
  refine rel_inScope ih fun o o' ho => ?_
  rw [hagrees.length_eq]
  refine Corresponds.endScope ho ?_ ?_ ?_
  · intro ρ σ hx
    exact (hx.oldest hvisible).weaken (Flow.reads_foldl_join _ _)
  · rintro ρ σ ⟨-, hx⟩
    exact hx
  · rintro ρ σ ⟨flow, hflow, hx⟩
    exact hx.weaken (Flow.reads_foldl_join_mem hflow)

/-- A loop and the typed loop that the checker makes of it do the same, if their
bodies do. -/
theorem checkLoop_exec (hr : ctx.Regular) {c : Syntax.Expr} {c' : Expr} (hc : checkTyped ctx .bool c = .ok c')
    {s : Syntax.Stmt} {b : Stmt} (hb : checkStmt returns s { ctx with continues := some [] } = .ok (b, inner))
    {fuel : Nat} (ih : ∀ {ρ : Env} {σ : Vars}, ctx.Agrees ρ σ →
      Option.Rel (Matches { ctx with continues := some [] } inner) (s.exec fuel ρ) (b.exec fuel σ))
    {step : Env → Except Syntax.Stop Env} {step' : Vars → Option Exit}
    (hstep : ∀ ρ σ, Agrees inner.endOfBody ctx.visible ρ σ →
      GoesOn ctx.Agrees (some (.after (step ρ))) (step' σ))
    {ρ : Env} {σ : Vars} (h : ctx.Agrees ρ σ) :
    GoesOn ctx.Agrees
      (Syntax.loop (fun ρ => c.eval ρ) (fun ρ => Syntax.inScope ρ fun ρ => s.exec fuel ρ) step fuel ρ)
      (loop (fun σ => c'.eval σ) (fun σ => execAll fuel (bodyOf s b) σ) step' fuel σ) :=
  loop_corresponds (I := ctx.Agrees) (fun _ _ hI => checkTyped_eval hI hc)
    (fun _ _ hI => body_corresponds hr hb hI (ih hI)) hstep fuel ρ σ h

/-- The step of a `for` loop. -/
theorem checkStep_exec (hr : ctx.Regular) {s : Syntax.Stmt} {b : Stmt}
    (hb : checkStmt returns s { ctx with continues := some [] } = .ok (b, inner)) {step : Option Syntax.Simple}
    {st : List Stmt} {tail : Context}
    (hst : checkOptional { ctx with nextSymbol := inner.nextSymbol, flow := inner.endOfBody } step = .ok (st, tail))
    (fuel : Nat) {ρ : Env} {σ : Vars} (h : Agrees inner.endOfBody ctx.visible ρ σ) :
    GoesOn ctx.Agrees
      (some (.after ((Syntax.execOptional ρ step).map (Env.oldest ρ.length)))) (execAll fuel st σ) := by
  have hbody := checkStmt_delivers s hr.enterLoop hb
  have htail := (hr.mono hbody.declared.le).withFlow hbody.regular.endOfBody_lt
  have hd : DeliversAll returns false _ st tail := checkOptional_delivers htail hst
  have hsub : ctx.flow.reads ⊆ tail.flow.reads :=
    (reads_subset_endOfBody hb).trans (reads_subset_all st (checkOptional_flows hst false).1).1
  have hexec := checkOptional_exec htail h hst fuel
  generalize execAll fuel st σ = o at hexec
  generalize Syntax.execOptional ρ step = r at hexec
  cases r with
  | ok ρ₁ =>
    cases hexec with
    | some ho =>
      cases ho with
      | next hx =>
        have hvisible : ctx.visible <:+ tail.visible := hd.visible ▸ suffix_foldl_scope st ctx.visible
        refine .some (.next ?_)
        rw [h.length_eq]
        exact (hx.oldest hvisible).weaken hsub
  | error e =>
    cases hexec with
    | some ho =>
      cases ho with
      | stopped fault => exact .some (.stopped fault)

/-- Without a step, a loop has the step that does nothing. -/
theorem exec_while {c : Expr} {b st : List Stmt} {step : Option Syntax.Simple} (hst : step = none → st = [])
    (fuel : Nat) (σ : Vars) : (Stmt.while_ c b (step.map fun _ => st)).exec fuel σ =
      loop (fun σ => c.eval σ) (fun σ => execAll fuel b σ) (fun σ => execAll fuel st σ) fuel σ := by
  cases step with
  | none =>
    rw [hst rfl, Option.map_none, Stmt.exec]
    congr
  | some s => rw [Option.map_some, Stmt.exec]

/-- A loop is not left by a jump. -/
theorem matches_of_loop {ctx' : Context} (hflow : ctx'.flow = ctx.flow) (hvisible : ctx'.visible = ctx.visible)
    {o : Syntax.Exit} {o' : Exit} (h : Corresponds ctx.Agrees Never Never o o') :
    Matches ctx ctx' o o' := by
  refine h.imp (fun ρ σ hx => ?_) (fun _ _ hx => hx.elim) fun _ _ hx => hx.elim
  rw [Context.Agrees, hflow, hvisible]
  exact hx

end Loops

mutual

/-- A statement and the typed statement that the checker makes of it do the same. -/
theorem checkStmt_exec {returns : Ty} (fuel : Nat) : ∀ (s : Syntax.Stmt) {ctx ctx' : Context} {t : Stmt} {ρ : Env}
    {σ : Vars}, ctx.Regular → ctx.Agrees ρ σ → checkStmt returns s ctx = .ok (t, ctx') →
    Option.Rel (Matches ctx ctx') (s.exec fuel ρ) (t.exec fuel σ)
  | .simple s, ctx, ctx', t, ρ, σ, hr, h, hs => by
    rw [Syntax.Stmt.exec]
    exact rel_imp (checkSimple_exec hr h (checkStmt_simple_inv hs) fuel) fun _ _ ho =>
      ho.imp (fun _ _ hx => hx) (fun _ _ hx => hx.elim) fun _ _ hx => hx.elim
  | .block p body, ctx, ctx', t, ρ, σ, hr, h, hs => by
    obtain ⟨stmts, inner, hbody, rfl, rfl⟩ := checkStmt_block_inv hs
    have hl := checkStmts_later hr hbody
    rw [Syntax.Stmt.exec, Stmt.exec]
    refine rel_inScope (checkStmts_exec fuel body hr h hbody) fun o o' ho => ?_
    rw [h.length_eq]
    exact ho.endScope hl.visible rfl subset_rfl (List.Subset.refl _)
  | .ifElse p c ifTrue none, ctx, ctx', t, ρ, σ, hr, h, hs => by
    obtain ⟨c', t', inner, hc, ht, rfl, rfl⟩ := checkStmt_if_inv hs
    have hl := checkStmt_later hr ht
    rw [Syntax.Stmt.exec, Stmt.exec, execAll_bodyOf]
    have hjoin := Flow.reads_join inner.flow ctx.flow
    refine choose_corresponds (checkTyped_eval h hc)
      (rel_inScope (checkStmt_exec fuel ifTrue hr h ht) fun o o' ho => ?_)
      (.some (.next (h.weaken ?_)))
    · rw [h.length_eq]
      exact ho.endScope hl.visible rfl (hjoin ▸ Set.inter_subset_left) (List.Subset.refl _)
    · exact hjoin ▸ Set.inter_subset_right
  | .ifElse p c ifTrue (some ifFalse), ctx, ctx', t, ρ, σ, hr, h, hs => by
    obtain ⟨c', t', inner, e', outer, hc, ht, he, rfl, rfl⟩ := checkStmt_ifElse_inv hs
    have hl := checkStmt_later hr ht
    have hle := (checkStmt_delivers ifTrue hr ht).declared.le
    have hmid := ((checkStmt_regular hr ht).restrict hr hle).withFlow fun id hid => (hr.assigned_lt id hid).trans_le hle
    have hl' := checkStmt_later hmid he
    rw [Syntax.Stmt.exec, Stmt.exec, execAll_bodyOf, execAll_bodyOf]
    have hjoin := Flow.reads_join inner.flow outer.flow
    refine choose_corresponds (checkTyped_eval h hc)
      (rel_inScope (checkStmt_exec fuel ifTrue hr h ht) fun o o' ho => ?_)
      (rel_inScope (checkStmt_exec fuel ifFalse hmid h he) fun o o' ho => ?_)
    · rw [h.length_eq]
      exact ho.endScope hl.visible rfl (hjoin ▸ Set.inter_subset_left) hl'.continues
    · rw [h.length_eq]
      have hctx : Later ctx { inner with visible := ctx.visible, flow := ctx.flow } :=
        ⟨List.suffix_rfl, subset_rfl, hl.inLoop, hl.continues⟩
      exact (Matches.last ho hctx).endScope hl'.visible rfl (hjoin ▸ Set.inter_subset_right) (List.Subset.refl _)
  | .while_ p c body, ctx, ctx', t, ρ, σ, hr, h, hs => by
    obtain ⟨c', b, inner, hc, hb, rfl, rfl⟩ := checkStmt_while_inv hs
    rw [Syntax.Stmt.exec, Stmt.exec]
    refine rel_imp (checkLoop_exec hr hc hb (fun hx => checkStmt_exec fuel body hr.enterLoop hx hb)
      (fun ρ σ hx => ?_) h) fun _ _ ho => matches_of_loop rfl rfl ho
    exact .some (.next (hx.weaken (reads_subset_endOfBody hb)))
  | .for_ p init c step body, ctx, ctx', t, ρ, σ, hr, h, hs => by
    obtain ⟨i, head, c', b, inner, st, tail, hi, hc, hb, hst, rfl, rfl⟩ := checkStmt_for_inv hs
    have hd : DeliversAll returns false ctx i head := checkOptional_delivers hr hi
    have hvisible : ctx.visible <:+ head.visible := hd.visible ▸ suffix_foldl_scope i ctx.visible
    have hnone : step = none → st = [] := by
      rintro rfl
      exact (checkOptional_none_inv hst).1
    have hinit := checkOptional_exec hr h hi fuel
    rw [Syntax.Stmt.exec, Stmt.exec, execAll_append]
    refine rel_inScope (R := Corresponds head.Agrees Never Never) ?_ fun o o' ho => ?_
    · generalize execAll fuel i σ = o at hinit
      generalize Syntax.execOptional ρ init = r at hinit
      cases r with
      | error e =>
        cases hinit with
        | some ho =>
          cases ho with
          | stopped fault => exact .some (.stopped fault)
      | ok ρ₁ =>
        cases hinit with
        | some ho =>
          cases ho with
          | next hx =>
            dsimp only
            rw [execAll_singleton, exec_while hnone]
            exact checkLoop_exec hd.regular hc hb (fun hy => checkStmt_exec fuel body hd.regular.enterLoop hy hb)
              (fun _ _ hy => checkStep_exec hd.regular hb hst fuel hy) hx
    · rw [h.length_eq]
      exact ho.endScope (fun _ _ hx => hx.oldest hvisible) (fun _ _ hx => hx.elim) fun _ _ hx => hx.elim
  | .break_ p, ctx, ctx', t, ρ, σ, hr, h, hs => by
    obtain ⟨hloop, rfl, rfl⟩ := checkStmt_break_inv hs
    rw [Syntax.Stmt.exec, Stmt.exec]
    exact .some (.broke ⟨hloop, h.oldest List.suffix_rfl⟩)
  | .continue_ p, ctx, ctx', t, ρ, σ, hr, h, hs => by
    obtain ⟨flows, -, rfl, rfl⟩ := checkStmt_continue_inv hs
    rw [Syntax.Stmt.exec, Stmt.exec]
    exact .some (.continued ⟨ctx.flow, by simp, h.oldest List.suffix_rfl⟩)
  | .return_ p value, ctx, ctx', t, ρ, σ, hr, h, hs => by
    obtain ⟨e, he, rfl, rfl⟩ := checkStmt_return_inv hs
    rw [Syntax.Stmt.exec, Stmt.exec]
    have hval := checkTyped_eval h he
    generalize value.eval ρ = a at hval
    generalize e.eval σ = b at hval
    cases hval with
    | ok w => exact .some (.returned w)
    | division fault => exact .some (.stopped fault)

theorem checkStmts_exec {returns : Ty} (fuel : Nat) : ∀ (body : List Syntax.Stmt) {ctx ctx' : Context} {t : List Stmt}
    {ρ : Env} {σ : Vars}, ctx.Regular → ctx.Agrees ρ σ → checkStmts returns body ctx = .ok (t, ctx') →
    Option.Rel (Matches ctx ctx') (Syntax.execAll fuel body ρ) (execAll fuel t σ)
  | [], ctx, ctx', t, ρ, σ, hr, h, hs => by
    obtain ⟨rfl, rfl⟩ := checkStmts_nil_inv hs
    rw [Syntax.execAll, execAll]
    exact .some (.next h)
  | s :: rest, ctx, ctx', t, ρ, σ, hr, h, hs => by
    obtain ⟨t₁, ctx₁, ts, h₁, hrest, rfl⟩ := checkStmts_cons_inv hs
    have hr₁ := checkStmt_regular hr h₁
    have hl := checkStmt_later hr h₁
    have hl₁ := checkStmts_later hr₁ hrest
    have hfirst := checkStmt_exec fuel s hr h h₁
    rw [Syntax.execAll, execAll]
    generalize s.exec fuel ρ = o at hfirst
    generalize t₁.exec fuel σ = o' at hfirst
    cases hfirst with
    | none => exact .none
    | some ho =>
      cases ho with
      | next hx => exact rel_imp (checkStmts_exec fuel rest hr₁ hx hrest) fun _ _ ho => ho.last hl
      | broke hx => exact .some (Matches.first (.broke hx) hl₁ (by simp))
      | continued hx => exact .some (Matches.first (.continued hx) hl₁ (by simp))
      | returned w => exact .some (.returned w)
      | stopped fault => exact .some (.stopped fault)

end

/-! ### Functions and programs -/

/-- With the same fuel, a function and the typed function that the checker makes of it
both have no answer or the same result. In particular neither comes to its end without
a `return` nor reads an unassigned variable. -/
theorem checkFunc_exec {f : Syntax.Func} {t : Func} (h : checkFunc f = .ok t) (fuel : Nat) :
    (f.exec fuel = none ∧ t.exec fuel = none) ∨
      ∃ r, f.exec fuel = some (.ofResult r) ∧ t.exec fuel = some (.ofResult r) := by
  obtain ⟨body, ctx, hbody, hend, rfl⟩ := checkFunc_inv h
  have hexec := checkStmts_exec fuel f.body Context.Regular.start Agrees.start hbody
  obtain ⟨new, hnew, -⟩ := checkStmts_flows f.body hbody
  unfold Syntax.Func.exec Func.exec
  dsimp only
  generalize Syntax.execAll fuel f.body [] = o at hexec
  generalize execAll fuel body Vars.none = o' at hexec
  cases hexec with
  | none => exact Or.inl ⟨rfl, rfl⟩
  | some ho =>
    cases ho with
    | next hx => exact absurd hx.live (Bool.eq_false_iff.mp hend)
    | broke hx => cases hx.1
    | continued hx =>
      obtain ⟨flow, hflow, -⟩ := hx
      rw [hnew] at hflow
      cases hflow
    | returned w => exact Or.inr ⟨.ok w, rfl, rfl⟩
    | stopped fault => exact Or.inr ⟨.error fault, rfl, rfl⟩

theorem checkFunc_returns {f : Syntax.Func} {t : Func} (h : checkFunc f = .ok t) : t.returns = f.returns := by
  obtain ⟨body, ctx, -, -, rfl⟩ := checkFunc_inv h
  rfl

section Outcomes

variable {f : Syntax.Func} {t : Func}

theorem Exit.ofResult_inj {r r' : Except DivisionFault Word} : Exit.ofResult r = .ofResult r' ↔ r = r' := by
  refine ⟨fun h => ?_, fun h => h ▸ rfl⟩
  cases r <;> cases r' <;> cases h <;> rfl

theorem checkFunc_ends (h : checkFunc f = .ok t) (r : Except DivisionFault Word) : t.Ends r ↔ f.Ends r := by
  refine exists_congr fun fuel => ?_
  obtain ⟨hf, ht⟩ | ⟨r', hf, ht⟩ := checkFunc_exec h fuel
  · simp [hf, ht]
  · rw [hf, ht, Option.some.injEq, Option.some.injEq, Exit.ofResult_inj, Syntax.Exit.ofResult_inj]

theorem checkFunc_diverges (h : checkFunc f = .ok t) : t.Diverges ↔ f.Diverges := by
  refine forall_congr' fun fuel => ?_
  obtain ⟨hf, ht⟩ | ⟨r, hf, ht⟩ := checkFunc_exec h fuel
  · simp [hf, ht]
  · simp [hf, ht]

theorem checkFunc_ends_or_diverges (h : checkFunc f = .ok t) : (∃ r, t.Ends r) ∨ t.Diverges := by
  by_cases hd : t.Diverges
  · exact Or.inr hd
  · obtain ⟨fuel, hfuel⟩ := not_forall.mp hd
    obtain ⟨-, ht⟩ | ⟨r, -, ht⟩ := checkFunc_exec h fuel
    · exact absurd ht hfuel
    · exact Or.inl ⟨r, fuel, ht⟩

end Outcomes

/-- One function is the entry, since there is one of that name. -/
theorem countP_isEntry {p : Syntax.Program} {functions : List Func} (hunique : checkNames [] p.functions = .ok ())
    (hentry : checkEntry p.functions = .ok ())
    (hall : List.Forall₂ (fun f t => checkFunc f = .ok t) p.functions functions) :
    functions.countP Func.isEntry = 1 := by
  have hmain : entryName ∈ p.functions.map Syntax.Func.name := by
    obtain ⟨f, hf, hname, -⟩ := checkEntry_inv hentry
    exact hname ▸ List.mem_map_of_mem hf
  have hflags : functions.map Func.isEntry = p.functions.map fun f => f.name == entryName :=
    map_eq_of_forall₂ hall fun _ _ hf => (checkFunc_head hf).2
  calc functions.countP Func.isEntry = (functions.map Func.isEntry).countP id := by rw [List.countP_map]; rfl
    _ = (p.functions.map Syntax.Func.name).count entryName := by
      rw [hflags, List.countP_map, List.count, List.countP_map]; rfl
    _ = 1 := List.count_eq_one_of_mem (checkNames_nodup _ hunique).1 hmain

/-- The checker keeps the meaning of every function of a program, and its typed trees
are in order: types follow from the parts, each symbol is declared once and before it
is used, jumps stand in loops, and one function is the entry. Assignments keep the type
of their variable where no compound assignment compares. -/
theorem check_preserves_meaning {p : Syntax.Program} {t : Program} (h : check p = .ok t) :
    List.Forall₂ (fun f g => g.name = f.name ∧ g.returns = f.returns ∧ (∀ r, g.Ends r ↔ f.Ends r) ∧
      (g.Diverges ↔ f.Diverges) ∧ ((∃ r, g.Ends r) ∨ g.Diverges) ∧
        g.WellFormed ∧ (Syntax.AllArithmetic f.body → g.KeepsTypes))
      p.functions t.functions ∧
    t.functions.countP Func.isEntry = 1 := by
  obtain ⟨_, hunique, h⟩ := bind_eq_ok.mp h
  obtain ⟨_, hentry, h⟩ := bind_eq_ok.mp h
  obtain ⟨functions, hfunctions, rfl⟩ := bind_pure_inj h
  have hall := mapM_ok_forall₂ hfunctions
  refine ⟨hall.imp fun f g hf => ?_, countP_isEntry hunique hentry hall⟩
  exact ⟨(checkFunc_head hf).1, checkFunc_returns hf, checkFunc_ends hf, checkFunc_diverges hf,
    checkFunc_ends_or_diverges hf, checkFunc_wellFormed hf, fun harith => checkFunc_keepsTypes harith hf⟩

/-- Two loops that declare the same names, the first with a `continue`. -/
def squares : Syntax.Program :=
  let p := Span.start
  let i : Syntax.Expr := .var p "i"
  let t : Syntax.Expr := .var p "t"
  ⟨[⟨p, .int, "main",
    [.simple (.declare p .int "s" (some (.int p 0))),
      .for_ p (some (.declare p .int "i" (some (.int p 0)))) (.binary p .lt i (.int p 5)) (some (.count p "i" .up))
        (.block p [.simple (.declare p .int "t" (some (.binary p .mul i i))),
          .ifElse p (.binary p .eq t (.int p 4)) (.continue_ p) none,
          .simple (.assign p "s" (some .add) t)]),
      .for_ p (some (.declare p .int "i" (some (.int p 9)))) (.binary p .gt i (.int p 7)) (some (.count p "i" .down))
        (.block p [.simple (.declare p .bool "t" (some (.binary p .eq i (.int p 8)))),
          .ifElse p t (.simple (.assign p "s" (some .sub) (.int p 1))) none]),
      .return_ p (.var p "s")]⟩]⟩

theorem squares_ends : ∃ t, check squares = .ok t ∧ (∃ g ∈ t.functions, g.Ends (.ok 25)) ∧
    t.functions.countP Func.isEntry = 1 := by
  have hok : (check squares).isOk = true := by decide +kernel
  cases hcheck : check squares with
  | error e => rw [hcheck] at hok; cases hok
  | ok t =>
    obtain ⟨hall, hentry⟩ := check_preserves_meaning hcheck
    obtain ⟨g, hg, -, -, hends, -⟩ := forall₂_mem_left hall _ List.mem_cons_self
    exact ⟨t, rfl, ⟨g, hg, (hends _).mpr ⟨10, by cbv⟩⟩, hentry⟩

end Chordal.Typed
