/-
# Construction succeeds

A builder fails where a variable is read that it does not bind, where a loop is
left outside of loops, and where control comes to the end of a function. None of
this happens on a tree whose flow states can be derived: where control is, the
builder binds every variable that the flow state allows to be read.

The edges to the targets of the loop around a piece are followed in the same way.
Every edge that a piece adds to them binds what was bound before the piece, and
an edge of a `continue` binds in addition what its flow state allows to be read.
So at the end of a loop everything is bound that was bound before the loop, and
the step finds what the body has assigned.

Key definitions: `Bindings.dom`, `Builder.Holds`, `Builder.Sends`, `Builder.Lowered`.
Key theorems: `Builder.lowerExpr_ok`, `Builder.closeLoop_ok`, `Builder.lowerStmts_ok`,
`build_ok`.
-/
import Mathlib
import Chordal.Proofs.Ssa.ConstructionMeaning
import Chordal.Proofs.Typed.Assignment

namespace Chordal.Ssa

open Typed (Flow AllFlow)

/-- The variables that are bound. -/
def Bindings.dom (m : Bindings) : Set Nat := {j | ∃ v, m.get? j = some v}

namespace Bindings

variable {m : Bindings}

theorem finite_dom (m : Bindings) : m.dom.Finite := by
  refine (List.finite_toSet (m.map Prod.fst)).subset fun j hj => ?_
  obtain ⟨v, hv⟩ := hj
  exact List.mem_map.mpr ⟨(j, v), IdMap.mem_of_get? hv, rfl⟩

/-- Nothing that cannot be reached is held by bindings. -/
theorem live_of_reads_subset {flow : Flow} (h : flow.reads ⊆ m.dom) : flow.live = true := by
  by_contra hdead
  have huniv : flow.reads = Set.univ := Typed.Flow.reads_of_not_live (Bool.eq_false_iff.mpr hdead)
  exact Set.infinite_univ ((finite_dom m).subset (huniv ▸ h))

theorem dom_insert (m : Bindings) (j : Nat) (v : Value) : Bindings.dom (m.insert j v) = insert j m.dom := by
  ext k
  change (∃ w, (IdMap.insert j v m).get? k = some w) ↔ k = j ∨ ∃ w, m.get? k = some w
  rw [IdMap.get?_insert]
  split_ifs with h
  · exact iff_of_true ⟨v, rfl⟩ (Or.inl h)
  · exact ⟨Or.inr, fun hk => hk.resolve_left h⟩

theorem subset_dom_rebind : ∀ (held : List (Nat × Value)) (m : Bindings), m.dom ⊆ (Builder.rebind m held).dom
  | [], _ => subset_rfl
  | (j, v) :: held, m => by
    refine Set.Subset.trans ?_ (subset_dom_rebind held (m.insert j v))
    rw [dom_insert]
    exact Set.subset_insert j m.dom

end Bindings

theorem edgeEntries_of_bound : ∀ {edges : List Edge} {j : Nat}, (∀ e ∈ edges, j ∈ e.bindings.dom) →
    ∃ entries, edgeEntries edges j = some entries
  | [], _, _ => ⟨[], rfl⟩
  | e :: edges, j, h => by
    obtain ⟨v, hv⟩ := h e List.mem_cons_self
    obtain ⟨rest, hrest⟩ := edgeEntries_of_bound fun e' he => h e' (List.mem_cons_of_mem _ he)
    refine ⟨(v, e.source) :: rest, ?_⟩
    unfold edgeEntries at hrest ⊢
    rw [List.mapM_cons, hv, hrest]
    rfl

/-- A variable that all edges bind is bound where they meet. -/
theorem mem_dom_mergeBindings {edges : List Edge} {j : Nat} (hall : ∀ e ∈ edges, j ∈ e.bindings.dom) :
    ∀ (m : Bindings) (fresh : Nat), j ∈ m.dom → j ∈ Bindings.dom (mergeBindings edges fresh m).2.1
  | [], _, h => by
    obtain ⟨v, hv⟩ := h
    cases hv
  | (symbol, first) :: rest, fresh, h => by
    have hrest : j ≠ symbol → j ∈ Bindings.dom rest := fun hne => by
      obtain ⟨v, hv⟩ := h
      rw [IdMap.get?_cons, if_neg hne.symm] at hv
      exact ⟨v, hv⟩
    have hcons : ∀ (v : Value) (m' : Bindings), (j ≠ symbol → j ∈ m'.dom) → j ∈ Bindings.dom ((symbol, v) :: m') := by
      intro v m' h'
      change ∃ w, IdMap.get? ((symbol, v) :: m') j = some w
      rw [IdMap.get?_cons]
      split_ifs with hj
      · exact ⟨v, rfl⟩
      · exact h' (Ne.symm hj)
    rw [mergeBindings_cons]
    cases hentries : edgeEntries edges symbol with
    | none =>
      refine mem_dom_mergeBindings hall rest fresh (hrest ?_)
      rintro rfl
      obtain ⟨entries, he⟩ := edgeEntries_of_bound hall
      rw [he] at hentries
      cases hentries
    | some entries =>
      simp only
      split_ifs
      · exact hcons _ _ fun hne => mem_dom_mergeBindings hall rest fresh (hrest hne)
      · exact hcons _ _ fun hne => mem_dom_mergeBindings hall rest (fresh + 1) (hrest hne)

namespace Builder

open Typed (Expr Stmt)

/-- Where control is, the variables are bound. -/
def Holds (D : Set Nat) (s : Builder) : Prop := s.current ≠ none → D ⊆ s.bindings.dom

namespace Holds

variable {D E : Set Nat} {s : Builder} {b : BlockId}

theorem mono (h : Holds D s) (hsub : E ⊆ D) : Holds E s := fun hcur => hsub.trans (h hcur)

theorem of_none (h : s.current = none) : Holds D s := fun hcur => absurd h hcur

/-- What all edges to a block bind is bound where it begins. -/
theorem enter (h : ∀ e ∈ s.edgesTo b, D ⊆ e.bindings.dom) : Holds D (s.enter b) := by
  intro hcur j hj
  rw [bindings_enter, entry]
  rcases hedges : s.edgesTo b with _ | ⟨e, _ | ⟨e', rest⟩⟩
  · rw [current_enter, if_pos hedges] at hcur
    exact absurd rfl hcur
  · exact h e (by rw [hedges]; exact List.mem_singleton_self e) hj
  · rw [hedges] at h
    exact mem_dom_mergeBindings (fun e he => h e he hj) _ _ (h e List.mem_cons_self hj)

/-- The edge from where a builder is binds what is bound there. -/
theorem exitEdge (h : Holds D s) : ∀ e ∈ s.exitEdge b, D ⊆ e.bindings.dom := by
  intro e he
  obtain ⟨a, ha, rfl⟩ := List.mem_map.mp he
  refine h ?_
  rw [Option.mem_toList.mp ha]
  exact Option.some_ne_none a

end Holds

/-! ### Expressions -/

theorem bindings_define {s : Builder} {a : BlockId} (hcur : s.current = some a) (ty : Ty) (make : Value → Instr) :
    (s.define ty make).2.bindings = s.bindings := by
  rw [define_snd hcur]

/-- An expression whose variables are bound is built, and they stay bound. -/
theorem lowerExpr_ok {flow : Flow} {e : Expr} {s : Builder} {a : BlockId} (hs : s.Good) (hcur : s.current = some a)
    (hread : e.ReadsIn flow) (hflow : flow.reads ⊆ s.bindings.dom) :
    ∃ v s', lowerExpr e s = .ok (v, s') ∧ s.bindings.dom ⊆ s'.bindings.dom := by
  induction e generalizing s a with
  | int value =>
    refine ⟨_, (s.define .int fun target => .const target value).2, rfl, ?_⟩
    rw [bindings_define hcur]
  | bool value =>
    refine ⟨_, (s.define .bool fun target => .bool target value).2, rfl, ?_⟩
    rw [bindings_define hcur]
  | var symbol =>
    obtain ⟨v, hv⟩ := hflow hread
    exact ⟨v, s, lowerExpr_var.mpr ⟨v, hv, rfl⟩, subset_rfl⟩
  | unary op operand ih =>
    obtain ⟨v, s₁, h₁, hsub⟩ := ih hs hcur hread hflow
    obtain ⟨-, ⟨b, hb⟩, -⟩ := lowerExpr_extends operand hs hcur h₁
    refine ⟨_, (s₁.define operand.ty fun target => .unary target op v).2, lowerExpr_unary.mpr ⟨v, s₁, h₁, rfl⟩, ?_⟩
    rw [bindings_define hb]
    exact hsub
  | binary op left right ihl ihr =>
    obtain ⟨v, s₁, h₁, hsub₁⟩ := ihl hs hcur hread.1 hflow
    obtain ⟨hx₁, ⟨b, hb⟩, -⟩ := lowerExpr_extends left hs hcur h₁
    obtain ⟨w, s₂, h₂, hsub₂⟩ := ihr hx₁.good hb hread.2 (hflow.trans hsub₁)
    obtain ⟨-, ⟨c, hc⟩, -⟩ := lowerExpr_extends right hx₁.good hb h₂
    refine ⟨_, (s₂.define (Expr.binary op left right).ty fun target => .binary target op v w).2,
      lowerExpr_binary.mpr ⟨v, s₁, w, s₂, h₁, h₂, rfl⟩, ?_⟩
    rw [bindings_define hc]
    exact hsub₁.trans hsub₂
  | ternary condition ifTrue ifFalse ihc iht ihe =>
    obtain ⟨c, s₁, h₁, hsub₁⟩ := ihc hs hcur hread.1 hflow
    obtain ⟨hx, ⟨b, hb⟩, -⟩ := lowerExpr_extends condition hs hcur h₁
    obtain ⟨hgood, hcurA, hbindA, -, -⟩ := enter_fork_first ternaryKinds c hx.good hb (by decide)
    obtain ⟨t, s₂, h₂, hsub₂⟩ := iht hgood hcurA hread.2.1 (by rw [hbindA]; exact hflow.trans hsub₁)
    obtain ⟨hy, -, -⟩ := lowerExpr_extends ifTrue hgood hcurA h₂
    have hf := forked hx.good hb (fun _ h => h.elim) hy rfl
    obtain ⟨e, s₃, h₃, hsub₃⟩ := ihe hf.good hf.current hread.2.2 (by rw [hf.bindings]; exact hflow.trans hsub₁)
    obtain ⟨hz, ⟨d, hd⟩, -⟩ := lowerExpr_extends ifFalse hf.good hf.current h₃
    have hdiamond := diamond hx.good hb (fun _ h => h.elim) hy rfl hz
    rw [hbindA] at hsub₂
    rw [hf.bindings] at hsub₃
    refine ⟨_, _, lowerExpr_ternary.mpr ⟨c, s₁, t, s₂, e, s₃, h₁, h₂, h₃, rfl⟩, ?_⟩
    rw [bindings_enterPhi]
    refine Holds.enter (fun edge hedge => ?_) ?_
    · rw [hdiamond.edges] at hedge
      rcases List.mem_append.mp hedge with hedge | hedge
      · exact Holds.exitEdge (fun _ => hsub₁.trans hsub₂) edge hedge
      · exact Holds.exitEdge (fun _ => hsub₁.trans hsub₃) edge hedge
    · rw [current_enter, if_neg]
      · exact Option.some_ne_none _
      · rw [hdiamond.edges]
        simp [Builder.exitEdge, hd]

/-! ### Pieces -/

/-- What a piece adds to the edges of the loop around it. -/
structure Sends (s s' : Builder) (new : List Flow) : Prop where
  breaks : ∀ l, s.loops.head? = some l → ∀ e ∈ s'.edgesTo l.onBreak,
    e ∈ s.edgesTo l.onBreak ∨ s.bindings.dom ⊆ e.bindings.dom
  continues : ∀ l, s.loops.head? = some l → ∀ e ∈ s'.edgesTo l.onContinue,
    e ∈ s.edgesTo l.onContinue ∨ s.bindings.dom ⊆ e.bindings.dom ∧ ∃ flow ∈ new, flow.reads ⊆ e.bindings.dom

namespace Sends

variable {s x y : Builder} {new new' : List Flow}

/-- A piece that adds no edges. -/
theorem of_eq (hs : s.Good) (h : ∀ b, b < s.size → x.edgesTo b = s.edgesTo b) : Sends s x new := by
  refine ⟨fun l hl e he => Or.inl ?_, fun l hl e he => Or.inl ?_⟩
  · rwa [h _ (loopTarget_lt hs ⟨l, hl, Or.inr rfl⟩)] at he
  · rwa [h _ (loopTarget_lt hs ⟨l, hl, Or.inl rfl⟩)] at he

theorem of_extends (hs : s.Good) (h : Extends (fun _ => False) s x) : Sends s x new :=
  of_eq hs fun _ _ => h.edgesTo_eq hs id

theorem mono (h : Sends s x new) (hsub : new ⊆ new') : Sends s x new' := by
  refine ⟨h.breaks, fun l hl e he => (h.continues l hl e he).imp_right ?_⟩
  rintro ⟨hdom, flow, hflow, hreads⟩
  exact ⟨hdom, flow, hsub hflow, hreads⟩

/-- A builder with the same edges to older blocks. -/
theorem congr (h : Sends s x new) (hs : s.Good) (heq : ∀ b, b < s.size → y.edgesTo b = x.edgesTo b) :
    Sends s y new := by
  refine ⟨fun l hl e he => ?_, fun l hl e he => ?_⟩
  · rw [heq _ (loopTarget_lt hs ⟨l, hl, Or.inr rfl⟩)] at he
    exact h.breaks l hl e he
  · rw [heq _ (loopTarget_lt hs ⟨l, hl, Or.inl rfl⟩)] at he
    exact h.continues l hl e he

/-- Two pieces, one after the other. -/
theorem trans (h : Sends s x new) (h' : Sends x y new') (hloops : x.loops = s.loops)
    (hdom : s.bindings.dom ⊆ x.bindings.dom) : Sends s y (new ++ new') := by
  refine ⟨fun l hl e he => ?_, fun l hl e he => ?_⟩
  · rcases h'.breaks l (hloops ▸ hl) e he with he | he
    · exact h.breaks l hl e he
    · exact Or.inr (hdom.trans he)
  · rcases h'.continues l (hloops ▸ hl) e he with he | ⟨he, flow, hflow, hreads⟩
    · exact (h.mono (List.subset_append_left new new')).continues l hl e he
    · exact Or.inr ⟨hdom.trans he, flow, List.mem_append_right _ hflow, hreads⟩

end Sends

/-- What is known behind a piece that began at `s`. -/
structure Lowered (s s' : Builder) (flow : Flow) (new : List Flow) : Prop where
  kept : Holds s.bindings.dom s'
  ready : Holds flow.reads s'
  sends : Sends s s' new

/-- What is known before a piece. -/
structure Fit (s : Builder) (flow : Flow) (inLoop : Bool) : Prop where
  good : s.Good
  ready : Holds flow.reads s
  inside : inLoop = true → s.loops ≠ []
  apart : ∀ l ∈ s.loops, l.onContinue ≠ l.onBreak

section Pieces

variable {s x y : Builder} {a : BlockId} {flow flow₁ flow₂ : Flow} {new new₁ new₂ : List Flow} {inLoop : Bool}

theorem Fit.reads_subset (h : Fit s flow inLoop) (hcur : s.current = some a) : flow.reads ⊆ s.bindings.dom :=
  h.ready (by rw [hcur]; exact Option.some_ne_none a)

/-- A piece behind an expression. -/
theorem Lowered.after (hs : s.Good) (hx : Extends (fun _ => False) s x) (hdom : s.bindings.dom ⊆ x.bindings.dom)
    (h : Lowered x y flow new) : Lowered s y flow new := by
  have hsends : Sends s x [] := .of_extends hs hx
  exact ⟨h.kept.mono hdom, h.ready, hsends.trans h.sends hx.loops hdom⟩

theorem lowerExpr_fit {e : Expr} (h : Fit s flow inLoop) (hcur : s.current = some a) (hread : e.ReadsIn flow) :
    ∃ v x b, lowerExpr e s = .ok (v, x) ∧ Extends (fun _ => False) s x ∧ x.current = some b ∧
      s.bindings.dom ⊆ x.bindings.dom ∧ Fit x flow inLoop := by
  obtain ⟨v, x, hx, hdom⟩ := lowerExpr_ok h.good hcur hread (h.reads_subset hcur)
  obtain ⟨hext, ⟨b, hb⟩, -⟩ := lowerExpr_extends e h.good hcur hx
  refine ⟨v, x, b, hx, hext, hb, hdom, hext.good, fun _ => (h.reads_subset hcur).trans hdom, ?_, ?_⟩
  · rw [hext.loops]
    exact h.inside
  · rw [hext.loops]
    exact h.apart

/-- A piece that begins with the same bindings and in the same loops. -/
theorem Fit.congr (h : Fit s flow inLoop) (hcur : s.current = some a) (hgood : x.Good)
    (hbind : x.bindings = s.bindings) (hloops : x.loops = s.loops) : Fit x flow inLoop := by
  refine ⟨hgood, fun _ => ?_, ?_, ?_⟩
  · rw [hbind]
    exact h.reads_subset hcur
  · rw [hloops]
    exact h.inside
  · rw [hloops]
    exact h.apart

/-- Statements behind a piece. -/
theorem Lowered.andThen {stmts : List Stmt} (hsends : Sends s x new₁) (hkept : Holds s.bindings.dom x)
    (hloops : x.loops = s.loops) (hy : lowerStmts stmts x = .ok y) (h : Lowered x y flow new₂) :
    Lowered s y flow (new₁ ++ new₂) := by
  cases hcur : x.current with
  | none =>
    rw [lowerStmts_of_none hcur] at hy
    obtain rfl := Except.ok.inj hy
    exact ⟨hkept, h.ready, hsends.mono (List.subset_append_left _ _)⟩
  | some b =>
    have hsub : s.bindings.dom ⊆ x.bindings.dom := hkept (by rw [hcur]; exact Option.some_ne_none b)
    exact ⟨h.kept.mono hsub, h.ready, hsends.trans h.sends hloops hsub⟩

theorem assign_ok {j : Nat} {e : Expr} (h : Fit s flow inLoop) (hcur : s.current = some a) (hread : e.ReadsIn flow) :
    ∃ s', s.assign j e = .ok s' ∧ Lowered s s' (flow.assign j) [] := by
  obtain ⟨v, x, b, hx, hext, hb, hdom, hfit⟩ := lowerExpr_fit h hcur hread
  have hassign : s.assign j e = _ := assign_iff.mpr ⟨v, x, hx, rfl⟩
  have hbind : Bindings.dom ((x.define v.ty fun target => .move target v).2.bind j ⟨x.count, v.ty⟩).bindings =
      insert j x.bindings.dom := by
    change Bindings.dom (IdMap.insert j _ _) = _
    rw [bindings_define hb, Bindings.dom_insert]
  refine ⟨_, hassign, fun _ => ?_, fun _ => ?_, Sends.of_extends h.good (assign_extends h.good hcur hassign)⟩
  · rw [hbind]
    exact hdom.trans (Set.subset_insert j _)
  · rw [hbind]
    exact (Typed.Flow.reads_assign flow j).trans (Set.insert_subset_insert (hfit.reads_subset hb))

theorem edgesTo_enter_fork {b : BlockId} (kinds : List String) (v : Value) (hs : s.Good) (hcur : s.current = some a)
    (hk : 2 ≤ kinds.length) (hb : b < s.size) : ((s.fork kinds v).enter s.size).edgesTo b = s.edgesTo b :=
  ((local_fork kinds v (fun _ => False) hs hcur).enter le_rfl
    (unbegun_fork kinds v hs hcur (i := 0) (by omega))).edges_same b hb id

/-- The edges to older blocks where ways meet. -/
theorem edgesTo_meet {b m : BlockId} (hb : b < s.size) (hm : s.size ≤ m) :
    ((x.jump m).enter m).edgesTo b = x.edgesTo b := by
  have hne : b ≠ m := Nat.ne_of_lt (Nat.lt_of_lt_of_le hb hm)
  rw [edgesTo_enter, if_neg hne, edgesTo_jump_ne _ hne.symm]

/-- A way and its detour. -/
theorem lowered_detour {c : Value} (hs : Fit s flow inLoop) (hcur : s.current = some a)
    (hx : Extends (LoopTarget ((s.fork ifKinds c).enter s.size)) ((s.fork ifKinds c).enter s.size) x)
    (h : Lowered ((s.fork ifKinds c).enter s.size) x flow₁ new) :
    Lowered s ((x.jump (s.size + 1 : Nat)).enter (s.size + 1 : Nat)) (flow₁.join flow) new := by
  obtain ⟨-, -, hbind, hloops, -⟩ := enter_fork_first ifKinds c hs.good hcur (by decide)
  have hd := detour hs.good hcur rfl (fun _ => loopTarget_lt hs.good) (hx.of_eq_loops hloops)
  refine ⟨.enter fun e he => ?_, .enter fun e he => ?_, ?_⟩
  · rw [hd.edges] at he
    rcases List.mem_cons.mp he with rfl | he
    · exact subset_rfl
    · have hsub := h.kept.exitEdge e he
      rwa [hbind] at hsub
  · rw [hd.edges] at he
    rw [Typed.Flow.reads_join]
    rcases List.mem_cons.mp he with rfl | he
    · exact Set.inter_subset_right.trans (hs.reads_subset hcur)
    · exact Set.inter_subset_left.trans (h.ready.exitEdge e he)
  · have hsame : Sends s ((s.fork ifKinds c).enter s.size) ([] : List Flow) :=
      .of_eq hs.good fun b hb => edgesTo_enter_fork ifKinds c hs.good hcur (by decide) hb
    exact (hsame.trans h.sends hloops (hbind ▸ subset_rfl)).congr hs.good fun b hb =>
      edgesTo_meet hb (Nat.le_succ _)

/-- Two ways that meet. -/
theorem lowered_diamond {c : Value} (hs : Fit s flow inLoop) (hcur : s.current = some a)
    (hx : Extends (LoopTarget ((s.fork ifElseKinds c).enter s.size)) ((s.fork ifElseKinds c).enter s.size) x)
    (h : Lowered ((s.fork ifElseKinds c).enter s.size) x flow₁ new₁)
    (hy : Extends (LoopTarget (s.secondWay x)) (s.secondWay x) y) (h' : Lowered (s.secondWay x) y flow₂ new₂) :
    Lowered s ((y.jump (s.size + 2 : Nat)).enter (s.size + 2 : Nat)) (flow₁.join flow₂) (new₁ ++ new₂) := by
  obtain ⟨-, -, hbind, hloops, -⟩ := enter_fork_first ifElseKinds c hs.good hcur (by decide)
  have hx' := hx.of_eq_loops hloops
  have hf := forked hs.good hcur (fun _ => loopTarget_lt hs.good) hx' rfl
  have hd := diamond hs.good hcur (fun _ => loopTarget_lt hs.good) hx' rfl (hy.of_eq_loops hf.loops)
  refine ⟨.enter fun e he => ?_, .enter fun e he => ?_, ?_⟩
  · rw [hd.edges] at he
    rcases List.mem_append.mp he with he | he
    · have hsub := h.kept.exitEdge e he
      rwa [hbind] at hsub
    · have hsub := h'.kept.exitEdge e he
      rwa [hf.bindings] at hsub
  · rw [hd.edges] at he
    rw [Typed.Flow.reads_join]
    rcases List.mem_append.mp he with he | he
    · exact Set.inter_subset_left.trans (h.ready.exitEdge e he)
    · exact Set.inter_subset_right.trans (h'.ready.exitEdge e he)
  · have hsame : Sends s ((s.fork ifElseKinds c).enter s.size) ([] : List Flow) :=
      .of_eq hs.good fun b hb => edgesTo_enter_fork ifElseKinds c hs.good hcur (by decide) hb
    have hfirst : Sends s (s.secondWay x) new₁ :=
      (hsame.trans h.sends hloops (hbind ▸ subset_rfl)).congr hs.good fun b hb => by
        have hne : ∀ i : Nat, b ≠ (s.size + i : Nat) := fun i =>
          Nat.ne_of_lt (Nat.lt_of_lt_of_le hb (Nat.le_add_right _ _))
        unfold secondWay
        rw [edgesTo_enter, if_neg (hne 1), edgesTo_jump_ne _ (hne 2).symm]
    exact (hfirst.trans h'.sends hf.loops (hf.bindings ▸ subset_rfl)).congr hs.good fun b hb =>
      edgesTo_meet hb (Nat.le_add_right _ _)

end Pieces

/-! ### Loops -/

theorem closeHeader_ok {body latch : BlockId} : ∀ (targets : List (Nat × Value)) {s : Builder},
    (∀ p ∈ targets, p.1 ∈ s.bindings.dom) → ∃ s', closeHeader body latch targets s = .ok s'
  | [], s, _ => ⟨s, rfl⟩
  | (symbol, phi) :: rest, s, h => by
    obtain ⟨v, hv⟩ := h _ List.mem_cons_self
    rw [closeHeader]
    simp only [hv]
    exact closeHeader_ok rest fun p hp => h p (List.mem_cons_of_mem _ hp)

section Loops

variable {free : BlockId → Prop} {s x : Builder} {l : LoopBlocks} {pre : BlockId} {symbols : IdSet} {flow : Flow}
  {c : Expr}

/-- A loop is closed if its ways to the test and to the exit bind what was bound
before it, and it then goes on with that. -/
theorem closeLoop_ok (hs : s.Good) (hl : Apart l s.size) (hfree : ∀ b, free b → b < s.size)
    (ht : Turning free s l pre symbols l.cond x) (hread : c.ReadsIn flow) (hflow : flow.reads ⊆ s.bindings.dom)
    (hcond : ∀ e ∈ x.edgesTo l.cond, s.bindings.dom ⊆ e.bindings.dom)
    (hexit : ∀ e ∈ x.edgesTo l.exit, s.bindings.dom ⊆ e.bindings.dom) :
    ∃ s', x.closeLoop l (headerTargets s.count (s.carried symbols)) c = .ok s' ∧ Holds s.bindings.dom s' ∧
      ∀ b, b < s.size → s'.edgesTo b = x.edgesTo b := by
  have hg := ht.good_enter hs hl.cond_ge
  have hne : ∀ b m : BlockId, b < s.size → s.size ≤ m → b ≠ m := fun b m hb hm =>
    Nat.ne_of_lt (Nat.lt_of_lt_of_le hb hm)
  have hexit₁ : (x.enter l.cond).edgesTo l.exit = x.edgesTo l.exit := by
    rw [edgesTo_enter, if_neg hl.cond_exit.symm]
  by_cases hnil : x.edgesTo l.cond = []
  · -- the test is not reached
    refine ⟨_, (closeLoop_iff hg).mpr (Or.inl ⟨hnil, rfl⟩), .enter fun e he => ?_, fun b hb => ?_⟩
    · exact hexit e (hexit₁ ▸ he)
    · rw [edgesTo_enter, if_neg (hne b _ hb hl.exit_ge), edgesTo_enter, if_neg (hne b _ hb hl.cond_ge)]
  · have hcur : (x.enter l.cond).current = some l.cond := by rw [current_enter, if_neg hnil]
    have hdom : s.bindings.dom ⊆ (x.enter l.cond).bindings.dom :=
      Holds.enter hcond (by rw [hcur]; exact Option.some_ne_none _)
    obtain ⟨v, y, hy, hsub⟩ := lowerExpr_ok hg hcur hread (hflow.trans hdom)
    obtain ⟨hext, ⟨latch, hlatch⟩, -⟩ := lowerExpr_extends c hg hcur hy
    have hbound : s.bindings.dom ⊆ y.bindings.dom := hdom.trans hsub
    obtain ⟨z, hz⟩ : ∃ z, closeHeader l.body latch (headerTargets s.count (s.carried symbols)) y = .ok z := by
      refine closeHeader_ok _ fun p hp => hbound ?_
      have hmem : p.1 ∈ (s.carried symbols).map Prod.fst := by
        rw [← map_fst_headerTargets (s.carried symbols) s.count]
        exact List.mem_map_of_mem hp
      obtain ⟨q, hq, heq⟩ := List.mem_map.mp hmem
      exact ⟨q.2, heq ▸ (mem_carried hq).1⟩
    have hc := closed (ht.extend hs hl hl.cond_ge hl.body_cond hl.cond_exit hfree (hext.mono fun _ hf => hf.elim)) hz
    have hedges : ∀ b, z.edgesTo b = (x.enter l.cond).edgesTo b := fun b =>
      (hc.edges b).trans (hext.edgesTo_eq hg id)
    refine ⟨_, (closeLoop_iff hg).mpr (Or.inr ⟨hnil, v, y, latch, z, hy, hlatch, hz, rfl⟩), .enter fun e he => ?_,
      fun b hb => ?_⟩
    · rw [edgesTo_leaveFor, if_pos rfl, hedges, hexit₁] at he
      rcases List.mem_append.mp he with he | he
      · exact hexit e he
      · obtain rfl := List.mem_singleton.mp he
        change s.bindings.dom ⊆ z.bindings.dom
        rw [hc.bindings]
        exact hbound
    · rw [edgesTo_enter, if_neg (hne b _ hb hl.exit_ge), edgesTo_leaveFor, if_neg (hne b _ hb hl.exit_ge).symm,
        List.append_nil, hedges, edgesTo_enter, if_neg (hne b _ hb hl.cond_ge)]

/-- The ways out of a loop's body bind what was bound before the loop, and those
to its end in addition what their flow states allow to be read. -/
theorem endBody_edges {guard : Value} {y : Builder} {new : List Flow} (hl : Apart l s.size)
    (ho : Opened s l pre guard symbols x) (h : Lowered x y flow new) :
    (∀ e ∈ (y.endBody l).edgesTo l.next, s.bindings.dom ⊆ e.bindings.dom ∧
      (new.foldl Flow.join flow).reads ⊆ e.bindings.dom) ∧
    ∀ e ∈ (y.endBody l).edgesTo l.exit, s.bindings.dom ⊆ e.bindings.dom := by
  have hdom : s.bindings.dom ⊆ x.bindings.dom := by
    rw [ho.bindings]
    exact Bindings.subset_dom_rebind _ _
  have htop : x.loops.head? = some ⟨l.next, l.exit⟩ := by
    rw [ho.loops]
    rfl
  refine ⟨fun e he => ?_, fun e he => ?_⟩
  · rw [edgesTo_endBody, if_pos rfl] at he
    rcases List.mem_append.mp he with he | he
    · rcases h.sends.continues _ htop e he with he | ⟨hsub, flow', hmem, hreads⟩
      · rw [ho.edges _ hl.next_ge, if_neg hl.next_exit] at he
        exact absurd he List.not_mem_nil
      · exact ⟨hdom.trans hsub, (Typed.Flow.reads_foldl_join_mem hmem).trans hreads⟩
    · exact ⟨hdom.trans (h.kept.exitEdge e he), (Typed.Flow.reads_foldl_join new flow).trans (h.ready.exitEdge e he)⟩
  · rw [edgesTo_endBody, if_neg hl.next_exit, List.append_nil] at he
    rcases h.sends.breaks _ htop e he with he | hsub
    · rw [ho.edges _ hl.exit_ge, if_pos rfl] at he
      obtain rfl := List.mem_singleton.mp he
      exact subset_rfl
    · exact hdom.trans hsub

/-- The body of a loop begins with what was known before. -/
theorem Opened.fit {guard : Value} {inLoop : Bool} (ho : Opened s l pre guard symbols x) (hl : Apart l s.size)
    (hs : Fit s flow inLoop) (hcur : s.current = some pre) : Fit x flow true := by
  refine ⟨ho.good, fun _ => (hs.reads_subset hcur).trans ?_, fun _ => ?_, fun t ht => ?_⟩
  · rw [ho.bindings]
    exact Bindings.subset_dom_rebind _ _
  · rw [ho.loops]
    exact List.cons_ne_nil _ _
  · rw [ho.loops] at ht
    rcases List.mem_cons.mp ht with rfl | ht
    · exact hl.next_exit
    · exact hs.apart t ht

end Loops

/-! ### Statements -/

mutual

/-- A statement whose flow states can be derived is built. -/
theorem lowerStmt_ok : ∀ (stmt : Stmt) {s : Builder} {a : BlockId} {inLoop : Bool} {flow flow' : Flow}
    {new : List Flow}, Fit s flow inLoop → s.current = some a → stmt.Flows inLoop flow flow' new →
    ∃ s', lowerStmt stmt s = .ok s' ∧ Lowered s s' flow' new
  | .declare _ none, s, a, _, _, _, _, hs, hcur, .declare =>
    ⟨s, by rw [lowerStmt], fun _ => subset_rfl, hs.ready, .of_eq hs.good fun _ _ => rfl⟩
  | .declare symbol (some e), s, a, _, _, _, _, hs, hcur, .init hread => by
    rw [lowerStmt]
    exact assign_ok hs hcur hread
  | .assign symbol e, s, a, _, _, _, _, hs, hcur, .assign hread => by
    rw [lowerStmt]
    exact assign_ok hs hcur hread
  | .expr e, s, a, _, _, _, _, hs, hcur, .expr hread => by
    obtain ⟨v, x, b, hx, hext, hb, hdom, hfit⟩ := lowerExpr_fit hs hcur hread
    exact ⟨x, lowerStmt_expr.mpr ⟨v, hx⟩, fun _ => hdom, hfit.ready, .of_extends hs.good hext⟩
  | .return_ e, s, a, _, _, _, _, hs, hcur, .return_ hread => by
    obtain ⟨v, x, b, hx, hext, hb, hdom, hfit⟩ := lowerExpr_fit hs hcur hread
    refine ⟨_, lowerStmt_return.mpr ⟨v, x, hx, rfl⟩, .of_none rfl, .of_none rfl, ?_⟩
    rw [ret_eq hb]
    exact .of_extends hs.good (hext.trans (extends_close hext.good hb (.ret v) rfl) fun _ hf => hf.elim)
  | .break_, s, a, _, _, _, _, hs, hcur, .break_ => by
    obtain ⟨l, rest, hl⟩ := List.exists_cons_of_ne_nil (hs.inside rfl)
    have hne := hs.apart l (by rw [hl]; exact List.mem_cons_self)
    refine ⟨_, lowerStmt_break.mpr ⟨l, rest, hl, rfl⟩, .of_none (current_jump _ _), .of_none (current_jump _ _),
      fun t ht e he => ?_, fun t ht e he => ?_⟩
    · rw [hl] at ht
      obtain rfl := Option.some.inj ht
      rw [edgesTo_jump_self] at he
      exact (List.mem_append.mp he).imp_right (Holds.exitEdge (fun _ => subset_rfl) e)
    · rw [hl] at ht
      obtain rfl := Option.some.inj ht
      rw [edgesTo_jump_ne _ hne.symm] at he
      exact Or.inl he
  | .continue_, s, a, _, flow, _, _, hs, hcur, .continue_ => by
    obtain ⟨l, rest, hl⟩ := List.exists_cons_of_ne_nil (hs.inside rfl)
    have hne := hs.apart l (by rw [hl]; exact List.mem_cons_self)
    refine ⟨_, lowerStmt_continue.mpr ⟨l, rest, hl, rfl⟩, .of_none (current_jump _ _), .of_none (current_jump _ _),
      fun t ht e he => ?_, fun t ht e he => ?_⟩
    · rw [hl] at ht
      obtain rfl := Option.some.inj ht
      rw [edgesTo_jump_ne _ hne] at he
      exact Or.inl he
    · rw [hl] at ht
      obtain rfl := Option.some.inj ht
      rw [edgesTo_jump_self] at he
      exact (List.mem_append.mp he).imp_right fun he => ⟨Holds.exitEdge (fun _ => subset_rfl) e he,
        flow, List.mem_singleton_self flow, hs.ready.exitEdge e he⟩
  | .block body, s, a, _, _, _, _, hs, hcur, .block h => by
    rw [lowerStmt]
    exact lowerStmts_ok body hs h
  | .ifElse c t none, s, a, _, _, _, _, hs, hcur, .ifThen hread h => by
    obtain ⟨v, x, b, hx, hext, hb, hdom, hfit⟩ := lowerExpr_fit hs hcur hread
    obtain ⟨hgood, hcurA, hbindA, hloopsA, -⟩ := enter_fork_first ifKinds v hext.good hb (by decide)
    obtain ⟨y, hy, hlow⟩ := lowerStmts_ok t (hfit.congr hb hgood hbindA hloopsA) h
    exact ⟨_, lowerStmt_if.mpr ⟨v, x, y, hx, hy, rfl⟩,
      .after hs.good hext hdom (lowered_detour hfit hb (lowerStmts_extends t hgood hy) hlow)⟩
  | .ifElse c t (some e), s, a, _, _, _, _, hs, hcur, .ifElse hread h h' => by
    obtain ⟨v, x, b, hx, hext, hb, hdom, hfit⟩ := lowerExpr_fit hs hcur hread
    obtain ⟨hgood, hcurA, hbindA, hloopsA, -⟩ := enter_fork_first ifElseKinds v hext.good hb (by decide)
    obtain ⟨y, hy, hlow⟩ := lowerStmts_ok t (hfit.congr hb hgood hbindA hloopsA) h
    have hyext := lowerStmts_extends t hgood hy
    have hf := forked hext.good hb (fun _ => loopTarget_lt hext.good) (hyext.of_eq_loops hloopsA) rfl
    obtain ⟨z, hz, hlow'⟩ := lowerStmts_ok e (hfit.congr hb hf.good hf.bindings hf.loops) h'
    exact ⟨_, lowerStmt_ifElse.mpr ⟨v, x, y, z, hx, hy, hz, rfl⟩,
      .after hs.good hext hdom (lowered_diamond hfit hb hyext hlow (lowerStmts_extends e hf.good hz) hlow')⟩
  | .while_ c body none, s, a, _, flow, _, _, hs, hcur, .loop hread h => by
    obtain ⟨v, x, pre, hx, hext, hpre, hdom, hfit⟩ := lowerExpr_fit hs hcur hread
    have hl := apart_loopBlocks x.size false
    have ho : Opened x _ pre v (assigned body) _ := opened hext.good hpre false
    obtain ⟨y, hy, hlow⟩ := lowerStmts_ok body (ho.fit hl hfit hpre) h
    have ht : Turning (fun _ => False) x _ pre (assigned body) _ _ :=
      turning_body hl ho (lowerStmts_extends body ho.good hy)
    obtain ⟨hnext, hexit⟩ := endBody_edges hl ho hlow
    obtain ⟨s', hs', hholds, hedges⟩ :=
      closeLoop_ok hext.good hl (fun _ hf => hf.elim) ht hread (hfit.reads_subset hpre)
      (fun e he => (hnext e he).1) hexit
    rw [← startLoop_fst hext.good hpre] at hs'
    refine ⟨s', (lowerStmt_while hs.good hcur).mpr ⟨v, x, pre, hx, hpre, y, hy, hs'⟩,
      .after hs.good hext hdom ⟨hholds, hholds.mono (hfit.reads_subset hpre), .of_eq hext.good fun b hb => ?_⟩⟩
    rw [hedges b hb, ht.near.edges_same b hb id]
  | .while_ c body (some step), s, a, inLoop, flow, _, _, hs, hcur, .stepLoop hread h hstep => by
    obtain ⟨v, x, pre, hx, hext, hpre, hdom, hfit⟩ := lowerExpr_fit hs hcur hread
    have hl := apart_loopBlocks x.size true
    have ho : Opened x _ pre v (IdSet.union (assigned body) (assigned step)) _ := opened hext.good hpre true
    obtain ⟨y, hy, hlow⟩ := lowerStmts_ok body (ho.fit hl hfit hpre) h
    have hyext := lowerStmts_extends body ho.good hy
    have ht₀ : Turning (fun _ => False) x _ pre (IdSet.union (assigned body) (assigned step)) _ _ :=
      turning_body hl ho hyext
    have ht : Turning (LoopTarget x) x _ pre (IdSet.union (assigned body) (assigned step)) _ _ :=
      turning_body hl ho hyext
    obtain ⟨hnext, hexit⟩ := endBody_edges hl ho hlow
    have hgood := ht.good_enter hext.good hl.next_ge
    have hloops := (loops_enter _ (loopBlocks x.size true).next).trans ht.loops
    obtain ⟨z, hz, hlow'⟩ := lowerStmts_ok step ⟨hgood, .enter fun e he => (hnext e he).2,
      by rw [hloops]; exact hfit.inside, by rw [hloops]; exact hfit.apart⟩ hstep
    have hzext := (lowerStmts_extends step hgood hz).of_eq_loops hloops
    have hfree : ∀ b, LoopTarget x b → b < x.size := fun _ => loopTarget_lt hext.good
    -- the body has added no edges to older blocks
    have hsends : Sends x ((y.endBody (loopBlocks x.size true)).enter (loopBlocks x.size true).next) ([] : List Flow) :=
      .of_eq hext.good fun b hb => by
        rw [edgesTo_enter, if_neg (Nat.ne_of_lt (Nat.lt_of_lt_of_le hb hl.next_ge)), ht₀.near.edges_same b hb id]
    have hthen := Lowered.andThen hsends (.enter fun e he => (hnext e he).1) hloops hz hlow'
    have hcond : ∀ e ∈ (z.jump (loopBlocks x.size true).cond).edgesTo (loopBlocks x.size true).cond,
        x.bindings.dom ⊆ e.bindings.dom := by
      intro e he
      rw [edgesTo_jump_self, (ht.extend hext.good hl hl.next_ge hl.body_next hl.next_exit hfree hzext).others _
        hl.cond_ge hl.cond_exit] at he
      exact hthen.kept.exitEdge e he
    have hexit' : ∀ e ∈ (z.jump (loopBlocks x.size true).cond).edgesTo (loopBlocks x.size true).exit,
        x.bindings.dom ⊆ e.bindings.dom := by
      intro e he
      rw [edgesTo_jump_ne _ hl.cond_exit, ht.edgesTo_exit hext.good hl hl.next_ge hl.next_exit hfree hzext] at he
      exact hexit e he
    obtain ⟨s', hs', hholds, hedges⟩ := closeLoop_ok hext.good hl hfree
      (turning_step ht hext.good hl (by simp [loopBlocks, LoopBlocks.next]) hfree hzext) hread (hfit.reads_subset hpre)
      hcond hexit'
    rw [← startLoop_fst hext.good hpre] at hs'
    refine ⟨s', (lowerStmt_while hs.good hcur).mpr ⟨v, x, pre, hx, hpre, y, z, hy, hz, hs'⟩,
      .after hs.good hext hdom
        ⟨hholds, hholds.mono (hfit.reads_subset hpre), hthen.sends.congr hext.good fun b hb => ?_⟩⟩
    rw [hedges b hb, edgesTo_jump_ne _ (Nat.ne_of_lt (Nat.lt_of_lt_of_le hb hl.cond_ge)).symm]

/-- Statements whose flow states can be derived are built. -/
theorem lowerStmts_ok : ∀ (stmts : List Stmt) {s : Builder} {inLoop : Bool} {flow flow' : Flow} {new : List Flow},
    Fit s flow inLoop → AllFlow inLoop flow stmts flow' new →
    ∃ s', lowerStmts stmts s = .ok s' ∧ Lowered s s' flow' new
  | [], s, _, _, _, _, hs, .nil => ⟨s, by rw [lowerStmts], fun _ => subset_rfl, hs.ready, .of_eq hs.good fun _ _ => rfl⟩
  | stmt :: rest, s, inLoop, _, _, _, hs, .cons h hrest => by
    cases hcur : s.current with
    | none => exact ⟨s, lowerStmts_of_none hcur _, .of_none hcur, .of_none hcur, .of_eq hs.good fun _ _ => rfl⟩
    | some a =>
      obtain ⟨x, hx, hlow⟩ := lowerStmt_ok stmt hs hcur h
      have hext := lowerStmt_extends stmt hs.good hcur hx
      obtain ⟨y, hy, hlow'⟩ := lowerStmts_ok rest
        ⟨hext.good, hlow.ready, by rw [hext.loops]; exact hs.inside, by rw [hext.loops]; exact hs.apart⟩ hrest
      exact ⟨y, (lowerStmts_cons hcur).mpr ⟨x, hx, hy⟩, .andThen hlow.sends hlow.kept hext.loops hy hlow'⟩

end

end Builder

/-- A function is built if its flow states can be derived and control does not
come to its end. -/
theorem build_ok {f : Typed.Func} {flow : Flow} {new : List Flow} (h : AllFlow false .start f.body flow new)
    (hend : flow.live = false) : ∃ g, build f = .ok g := by
  have hfit : Builder.Fit (Builder.start f) .start false := by
    refine ⟨good_start f, fun _ j hj => ?_, fun hloop => ?_, fun l hl => ?_⟩
    · cases hj
    · cases hloop
    · cases hl
  obtain ⟨s, hs, hlow⟩ := Builder.lowerStmts_ok f.body hfit h
  refine ⟨s.func, bind_eq_ok.mpr ⟨s, hs, ?_⟩⟩
  cases hcur : s.current with
  | none => rfl
  | some b =>
    have hlive := Bindings.live_of_reads_subset (hlow.ready (by rw [hcur]; exact Option.some_ne_none b))
    rw [hend] at hlive
    cases hlive

end Chordal.Ssa
