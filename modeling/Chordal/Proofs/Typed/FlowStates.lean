/-
# What the checker knows, and sets of states

A flow state of the checker stands for a set of states of executions
(`Flow.Exact`): it is live if the set is not empty, and a variable counts as
assigned if it is assigned in all states of the set. Where two flow states meet,
the join stands for the union.

A context whose flow state stands for a set of states finds the faults of
expressions and simple statements exactly: checking fails at a read of an
unassigned variable if and only if some evaluation from the set makes one.

Key definitions: `Exactly`, `Flow.Exact`, `Context.Tracks`.
Key theorems: `Flow.Exact.join`, `checkExpr_exact`, `checkSimple_exact`.
-/
import Mathlib
import Chordal.Typed.Checker
import Chordal.Proofs.Finite
import Chordal.Proofs.Syntax.Collecting

namespace Chordal.Typed

open Syntax (Scope State FaultsIn faultsIn_var faultsIn_binary faultsIn_ternary faultsIn_congr faultsIn_append
  not_faultsIn_nil)

/-! ### Results of the checker -/

/-- The result is what `ok` asks for, or an unassigned variable is reported, and
the latter if and only if `faults`. -/
def Exactly {α : Type} (result : Except Diagnostic α) (faults : Prop) (ok : α → Prop) : Prop :=
  (∃ a, result = .ok a ∧ ¬ faults ∧ ok a) ∨ ∃ p name, result = .error (.semantic p (.unassigned name)) ∧ faults

namespace Exactly

variable {α β : Type} {result : Except Diagnostic α} {F G H : Prop} {ok : α → Prop}

theorem pure {a : α} (h : ok a) : Exactly (.ok a) False ok := Or.inl ⟨a, rfl, not_false, h⟩

theorem congr (h : Exactly result F ok) (hiff : F ↔ G) : Exactly result G ok := by
  rwa [← propext hiff]

theorem imp {ok' : α → Prop} (h : Exactly result F ok) (himp : ∀ a, ¬ F → ok a → ok' a) : Exactly result F ok' := by
  obtain ⟨a, ha, hF, hok⟩ | herr := h
  · exact Or.inl ⟨a, ha, hF, himp a hF hok⟩
  · exact Or.inr herr

/-- One computation after another: the second faults count where there are no
first ones. -/
theorem bind {k : α → Except Diagnostic β} {ok' : β → Prop} (h : Exactly result F ok)
    (hk : ∀ a, ¬ F → ok a → Exactly (k a) G ok') (hF : F → H) (hG : ¬ F → (H ↔ G)) :
    Exactly (result >>= k) H ok' := by
  obtain ⟨a, rfl, hnot, ha⟩ | ⟨p, name, rfl, hf⟩ := h
  · exact (hk a hnot ha).congr (hG hnot).symm
  · exact Or.inr ⟨p, name, rfl, hF hf⟩

/-- The first computation is the last one that may fault. -/
theorem last {k : α → Except Diagnostic β} {ok' : β → Prop} (h : Exactly result F ok)
    (hk : ∀ a, ok a → Exactly (k a) False ok') : Exactly (result >>= k) F ok' :=
  h.bind (fun a _ => hk a) id fun hnot => iff_of_false hnot not_false

end Exactly

/-! ### Flow states and sets of states -/

namespace Flow

theorem live_join (a b : Flow) : (a.join b).live = (a.live || b.live) := by
  unfold join
  cases ha : a.live <;> cases hb : b.live <;> simp [ha, hb]

theorem isAssigned_join (a b : Flow) (id : Nat) :
    (a.join b).isAssigned id = (a.isAssigned id && b.isAssigned id) := by
  unfold join isAssigned
  cases ha : a.live <;> cases hb : b.live <;> simp [ha, hb]

theorem mem_assigned_join {a b : Flow} {id : Nat} (h : id ∈ (a.join b).assigned) :
    id ∈ a.assigned ∨ id ∈ b.assigned := by
  unfold join at h
  split_ifs at h
  · exact Or.inr h
  · exact Or.inl h
  · exact Or.inl (List.mem_filter.mp h).1

/-- The flow state says exactly what holds of all states of a set, as far as the
visible symbols go. -/
structure Exact (flow : Flow) (visible : List Symbol) (P : Set State) : Prop where
  live : flow.live = true ↔ P.Nonempty
  assigned : ∀ s ∈ visible, flow.isAssigned s.id = true ↔ ∀ S ∈ P, s.name ∈ S

namespace Exact

variable {a b flow : Flow} {visible visible' : List Symbol} {P Q : Set State}

theorem of_subset (h : flow.Exact visible P) (hsub : visible' ⊆ visible) : flow.Exact visible' P :=
  ⟨h.live, fun s hs => h.assigned s (hsub hs)⟩

theorem dead : Flow.dead.Exact visible ∅ := by
  refine ⟨?_, fun s _ => ?_⟩
  · simp [Flow.dead]
  · simp [Flow.dead, isAssigned]

theorem join (ha : a.Exact visible P) (hb : b.Exact visible Q) : (a.join b).Exact visible (P ∪ Q) := by
  refine ⟨?_, fun s hs => ?_⟩
  · rw [live_join, Bool.or_eq_true, ha.live, hb.live, Set.union_nonempty]
  · rw [isAssigned_join, Bool.and_eq_true, ha.assigned s hs, hb.assigned s hs]
    simp only [Set.mem_union, or_imp, forall_and]

/-- States that come from the set and have all its visible names add nothing. -/
theorem grow (h : flow.Exact visible P) (hsub : P ⊆ Q)
    (hkept : ∀ S' ∈ Q, ∃ S ∈ P, ∀ s ∈ visible, s.name ∈ S → s.name ∈ S') : flow.Exact visible Q := by
  refine ⟨?_, fun s hs => ?_⟩
  · rw [h.live]
    refine ⟨fun hne => hne.mono hsub, fun ⟨S', hS'⟩ => ?_⟩
    obtain ⟨S, hS, -⟩ := hkept S' hS'
    exact ⟨S, hS⟩
  · rw [h.assigned s hs]
    refine ⟨fun hall S' hS' => ?_, fun hall S hS => hall S (hsub hS)⟩
    obtain ⟨S, hS, hk⟩ := hkept S' hS'
    exact hk s hs (hall S hS)

end Exact
end Flow

/-- The names and types of symbols. -/
def typesOf (visible : List Symbol) : Scope := visible.map fun s => (s.name, s.ty)

theorem names_typesOf (visible : List Symbol) : (typesOf visible).names = visible.map Symbol.name := by
  simp [typesOf, Scope.names]

/-- The visible symbols have names and numbers of their own, and their numbers are
given out. -/
structure Proper (visible : List Symbol) (next : Nat) : Prop where
  names : (visible.map Symbol.name).Nodup
  ids : (visible.map Symbol.id).Nodup
  id_lt : ∀ s ∈ visible, s.id < next

theorem Proper.mono {visible : List Symbol} {n m : Nat} (h : Proper visible n) (hle : n ≤ m) : Proper visible m :=
  ⟨h.names, h.ids, fun s hs => (h.id_lt s hs).trans_le hle⟩

/-- A context for executions that come to a point with the states of `P`. -/
structure Context.Tracks (ctx : Context) (P : Set State) : Prop where
  exact : ctx.flow.Exact ctx.visible P
  proper : Proper ctx.visible ctx.nextSymbol
  assigned_lt : ∀ id ∈ ctx.flow.assigned, id < ctx.nextSymbol

namespace Context

variable {ctx ctx' : Context} {P Q : Set State}

theorem lookup_eq (hp : Proper ctx.visible ctx.nextSymbol) {name : String} {ty : Ty}
    (h : (name, ty) ∈ typesOf ctx.visible) (p : Span) :
    ∃ s ∈ ctx.visible, ctx.lookup p name = .ok s ∧ s.name = name ∧ s.ty = ty := by
  obtain ⟨s, hs, heq⟩ := List.mem_map.mp h
  obtain ⟨rfl, rfl⟩ := Prod.mk.inj heq
  have hsome : (ctx.visible.find? fun t => t.name == s.name).isSome = true :=
    List.find?_isSome.mpr ⟨s, hs, by simp⟩
  obtain ⟨t, ht⟩ := Option.isSome_iff_exists.mp hsome
  have hname : t.name = s.name := by simpa using List.find?_some ht
  obtain rfl := List.inj_on_of_nodup_map hp.names (List.mem_of_find?_eq_some ht) hs hname
  exact ⟨t, hs, by unfold lookup; rw [ht], rfl, rfl⟩

theorem declare_eq {name : String} (h : name ∉ (typesOf ctx.visible).names) (p : Span) (ty : Ty) :
    ctx.declare p name ty = .ok (⟨ctx.nextSymbol, name, ty⟩,
      { ctx with visible := ⟨ctx.nextSymbol, name, ty⟩ :: ctx.visible, nextSymbol := ctx.nextSymbol + 1 }) := by
  rw [names_typesOf] at h
  have hnone : (ctx.visible.any fun s => s.name == name) = false := by
    rw [List.any_eq_false]
    intro s hs heq
    exact h (List.mem_map.mpr ⟨s, hs, by simpa using heq⟩)
  unfold declare
  rw [hnone]
  rfl

namespace Tracks

variable (h : ctx.Tracks P)

include h

/-- The end of a scope. -/
theorem restrict {visible : List Symbol} {n : Nat} (hv : Proper visible n) (hsub : visible ⊆ ctx.visible)
    (hle : n ≤ ctx.nextSymbol) : ({ ctx with visible := visible }).Tracks P :=
  ⟨h.exact.of_subset hsub, hv.mono hle, h.assigned_lt⟩

/-- A visible symbol is assigned. -/
theorem assign {s : Symbol} (hs : s ∈ ctx.visible) : (ctx.assign s).Tracks ((insert s.name ·) '' P) := by
  refine ⟨⟨?_, fun t ht => ?_⟩, h.proper, fun id hid => ?_⟩
  · rw [Set.image_nonempty]
    exact h.exact.live
  · have hids : t.id = s.id ↔ t.name = s.name :=
      ⟨fun he => congrArg _ (List.inj_on_of_nodup_map h.proper.ids ht hs he),
        fun he => congrArg _ (List.inj_on_of_nodup_map h.proper.names ht hs he)⟩
    have hold := h.exact.assigned t ht
    simp only [Context.assign, Flow.assign, Flow.isAssigned, Set.forall_mem_image] at hold ⊢
    by_cases he : t.id = s.id
    · simp [he, hids.mp he]
    · have hne : t.name ≠ s.name := fun hn => he (hids.mpr hn)
      simp only [List.contains_cons, beq_eq_false_iff_ne.mpr he, Bool.false_or, hold, Finset.mem_insert, hne, false_or]
  · rcases List.mem_cons.mp hid with rfl | hid
    · exact h.proper.id_lt s hs
    · exact h.assigned_lt id hid

/-- A symbol is declared. Nothing is known about an older variable of its name. -/
theorem declare {name : String} {ty : Ty} (hname : name ∉ (typesOf ctx.visible).names) :
    ({ ctx with visible := ⟨ctx.nextSymbol, name, ty⟩ :: ctx.visible, nextSymbol := ctx.nextSymbol + 1 }).Tracks
      ((fun S : State => S.erase name) '' P) := by
  rw [names_typesOf] at hname
  have hfresh : ctx.nextSymbol ∉ ctx.flow.assigned := fun hid => absurd (h.assigned_lt _ hid) (lt_irrefl _)
  refine ⟨⟨?_, fun t ht => ?_⟩, ⟨?_, ?_, fun t ht => ?_⟩, fun id hid => Nat.lt_succ_of_lt (h.assigned_lt id hid)⟩
  · rw [Set.image_nonempty]
    exact h.exact.live
  · simp only [Set.forall_mem_image, Finset.mem_erase]
    rcases List.mem_cons.mp ht with rfl | ht
    · have hlive := h.exact.live
      simp only [Flow.isAssigned, List.contains_eq_mem, hfresh, decide_false, Bool.or_false, Bool.not_eq_true', ne_eq,
        not_true_eq_false, false_and, imp_false]
      rw [← Bool.not_eq_true, hlive, Set.not_nonempty_iff_eq_empty, Set.eq_empty_iff_forall_notMem]
    · have hne : t.name ≠ name := fun he => hname (he ▸ List.mem_map_of_mem ht)
      rw [h.exact.assigned t ht]
      simp [hne]
  · exact List.nodup_cons.mpr ⟨hname, h.proper.names⟩
  · refine List.nodup_cons.mpr ⟨fun hid => ?_, h.proper.ids⟩
    obtain ⟨t, ht, heq⟩ := List.mem_map.mp hid
    exact absurd (h.proper.id_lt t ht) (heq ▸ lt_irrefl _)
  · rcases List.mem_cons.mp ht with rfl | ht
    · exact Nat.lt_succ_self _
    · exact Nat.lt_succ_of_lt (h.proper.id_lt t ht)

/-- Reading a visible symbol. -/
theorem readable {s : Symbol} (hs : s ∈ ctx.visible) (p : Span) :
    Exactly (readable ctx p s) (∃ S ∈ P, s.name ∉ S) fun _ => True := by
  have hiff := h.exact.assigned s hs
  unfold Typed.readable
  by_cases ha : ctx.flow.isAssigned s.id = true
  · rw [if_pos ha]
    refine Or.inl ⟨(), rfl, ?_, trivial⟩
    rintro ⟨S, hS, hnot⟩
    exact hnot (hiff.mp ha S hS)
  · rw [if_neg ha]
    refine Or.inr ⟨p, s.name, rfl, ?_⟩
    by_contra hnone
    push Not at hnone
    exact ha (hiff.mpr hnone)

end Tracks
end Context

/-! ### Expressions -/

section Expressions

variable {P : Set State}

variable {ctx : Context}

/-- An expression of the right type passes. -/
theorem expectTy_ok {p : Span} {ty : Ty} {e : Expr} (h : e.ty = ty) : expectTy p ty e = .ok e := by
  unfold expectTy
  rw [if_pos h]

theorem checkBinary_exact {p : Span} {op : BinaryOp} {left right : Syntax.Expr} {a b ty : Ty}
    (hl : Exactly (checkExpr ctx left) (FaultsIn left.Reads P) fun t => t.ty = a)
    (hr : Exactly (checkExpr ctx right) (FaultsIn right.Reads P) fun t => t.ty = b)
    (hfit : operandsFit op a b = true) (hty : (if op.isComparison then .bool else a) = ty) :
    Exactly (checkExpr ctx (.binary p op left right)) (FaultsIn (Syntax.Expr.binary p op left right).Reads P)
      fun t => t.ty = ty := by
  rw [checkExpr]
  refine hl.bind (fun l _ hlty => ?_) (fun hf => faultsIn_binary.mpr (Or.inl hf)) fun hnot =>
    faultsIn_binary.trans (or_iff_right hnot)
  refine hr.last fun r hrty => ?_
  subst hlty hrty
  rw [if_pos hfit]
  exact Exactly.pure hty

/-- Checking an expression reports an unassigned variable if some evaluation reads
one, and otherwise gives a tree of its type. -/
theorem checkExpr_exact (h : ctx.Tracks P) {e : Syntax.Expr} {ty : Ty} (he : e.HasTy (typesOf ctx.visible) ty) :
    Exactly (checkExpr ctx e) (FaultsIn e.Reads P) fun t => t.ty = ty := by
  induction he with
  | @int p value =>
    have hnone : ¬ FaultsIn (Syntax.Expr.int p value).Reads P := not_faultsIn_nil fun _ h => by cases h; rfl
    exact Or.inl ⟨_, rfl, hnone, rfl⟩
  | @bool p value =>
    have hnone : ¬ FaultsIn (Syntax.Expr.bool p value).Reads P := not_faultsIn_nil fun _ h => by cases h; rfl
    exact Or.inl ⟨_, rfl, hnone, rfl⟩
  | @var p name ty hmem =>
    obtain ⟨s, hs, hlookup, rfl, rfl⟩ := Context.lookup_eq h.proper hmem p
    rw [checkExpr, hlookup]
    exact ((h.readable hs p).congr faultsIn_var.symm).last fun _ _ => Exactly.pure rfl
  | @unary p op operand _ ih =>
    rw [checkExpr]
    have hreads : FaultsIn (Syntax.Expr.unary p op operand).Reads P ↔ FaultsIn operand.Reads P :=
      faultsIn_congr fun xs => ⟨fun h => by cases h; assumption, .unary⟩
    refine (ih.congr hreads.symm).last fun t ht => ?_
    rw [expectTy_ok ht]
    exact Exactly.pure ht
  | @equality p op left right ty hop _ _ ihl ihr =>
    have hcmp : op.isComparison = true := by cases op <;> first | rfl | cases hop
    exact checkBinary_exact ihl ihr (by simp [operandsFit, hop]) (by simp [hcmp])
  | @comparison p op left right hop hcmp _ _ ihl ihr =>
    exact checkBinary_exact ihl ihr (by simp [operandsFit, hop]) (by simp [hcmp])
  | @arithmetic p op left right hcmp _ _ ihl ihr =>
    have hop : op.isEquality = false := by cases op <;> first | rfl | cases hcmp
    exact checkBinary_exact ihl ihr (by simp [operandsFit, hop]) (by simp [hcmp])
  | @ternary p c t e ty _ _ _ ihc iht ihe =>
    rw [checkExpr]
    refine ihc.bind (fun c' _ hc => ?_) (fun hf => faultsIn_ternary.mpr (Or.inl hf)) fun hnot =>
      faultsIn_ternary.trans (or_iff_right hnot)
    rw [expectTy_ok hc]
    refine iht.bind (fun t' _ ht => ?_) Or.inl fun hnot => or_iff_right hnot
    refine ihe.last fun e' he => ?_
    rw [expectTy_ok (he.trans ht.symm)]
    exact Exactly.pure ht

theorem checkTyped_exact (h : ctx.Tracks P) {e : Syntax.Expr} {ty : Ty} (he : e.HasTy (typesOf ctx.visible) ty) :
    Exactly (checkTyped ctx ty e) (FaultsIn e.Reads P) fun t => t.ty = ty := by
  unfold checkTyped
  refine (checkExpr_exact h he).last fun t ht => ?_
  rw [expectTy_ok ht]
  exact Exactly.pure ht

end Expressions

/-! ### Simple statements -/

section Simple

variable {ctx : Context} {P : Set State}

/-- What is known behind a simple statement, which may be missing. -/
structure SimpleChecked (ctx : Context) (s : Option Syntax.Simple) (P : Set State) (ctx' : Context) : Prop where
  tracks : ctx'.Tracks ((fun S => Syntax.afterOf S s) '' P)
  types : typesOf ctx'.visible = Syntax.scopeOf (typesOf ctx.visible) s
  visible_subset : ctx.visible ⊆ ctx'.visible
  next_le : ctx.nextSymbol ≤ ctx'.nextSymbol
  continues : ctx'.continues = ctx.continues

theorem SimpleChecked.assign (h : ctx.Tracks P) {s : Symbol} (hs : s ∈ ctx.visible) {stmt : Syntax.Simple}
    (hafter : ∀ S, stmt.after S = insert s.name S) (hscope : ∀ Γ, stmt.scope Γ = Γ) :
    SimpleChecked ctx (some stmt) P (ctx.assign s) := by
  refine ⟨?_, (hscope _).symm, List.Subset.refl _, le_rfl, rfl⟩
  rw [show (fun S => Syntax.afterOf S (some stmt)) = insert s.name from funext hafter]
  exact h.assign hs

theorem compound_exact (h : ctx.Tracks P) {s : Symbol} (hs : s ∈ ctx.visible) (hty : s.ty = .int) (p : Span)
    (op : BinaryOp) {rhs : Expr} (hrhs : rhs.ty = .int) :
    Exactly (compound ctx p s op rhs) (∃ S ∈ P, s.name ∉ S) fun _ => True := by
  unfold compound
  rw [if_pos ⟨hty, hrhs⟩]
  exact (h.readable hs p).last fun _ _ => Exactly.pure trivial

theorem checkSimple_exact (h : ctx.Tracks P) {s : Syntax.Simple} (hs : s.InOrder (typesOf ctx.visible)) :
    Exactly (checkSimple ctx s) (FaultsIn s.Reads P) fun r => SimpleChecked ctx (some s) P r.2 := by
  match s, hs with
  | .declare p ty name none, hs =>
    rw [checkSimple, Context.declare_eq hs]
    have hnone : ¬ FaultsIn (Syntax.Simple.declare p ty name none).Reads P :=
      not_faultsIn_nil fun _ h => by cases h; rfl
    exact Or.inl ⟨_, rfl, hnone, h.declare hs, rfl, List.subset_cons_self _ _, Nat.le_succ _, rfl⟩
  | .declare p ty name (some value), hs =>
    rw [checkSimple]
    have hreads : FaultsIn (Syntax.Simple.declare p ty name (some value)).Reads P ↔ FaultsIn value.Reads P :=
      faultsIn_congr fun xs => ⟨fun h => by cases h; assumption, .init⟩
    refine ((checkTyped_exact h hs.1).congr hreads.symm).last fun e _ => ?_
    rw [Context.declare_eq hs.2]
    refine Exactly.pure ⟨?_, rfl, List.subset_cons_self _ _, Nat.le_succ _, rfl⟩
    have hafter : (fun S => Syntax.afterOf S (some (.declare p ty name (some value)))) =
        fun S => insert name (S.erase name) := by
      funext S
      ext x
      by_cases hx : x = name <;> simp [Syntax.afterOf, Syntax.Simple.after, hx]
    rw [hafter, ← Set.image_image (insert name) fun S : State => S.erase name]
    exact (h.declare hs.2).assign List.mem_cons_self
  | .assign p name none value, hs =>
    obtain ⟨ty, hmem, hty⟩ := hs
    obtain ⟨s, hs, hlookup, rfl, rfl⟩ := Context.lookup_eq h.proper hmem p
    rw [checkSimple, hlookup]
    have hreads : FaultsIn (Syntax.Simple.assign p s.name none value).Reads P ↔ FaultsIn value.Reads P :=
      faultsIn_congr fun xs => ⟨fun h => by cases h; assumption, .assign⟩
    refine ((checkTyped_exact h hty).congr hreads.symm).last fun e _ => ?_
    exact Exactly.pure (.assign h hs (fun _ => rfl) fun _ => rfl)
  | .assign p name (some op) value, hs =>
    obtain ⟨s, hmem, hlookup, rfl, hty⟩ := Context.lookup_eq h.proper hs.1 p
    rw [checkSimple, hlookup]
    have hreads : FaultsIn (Syntax.Simple.assign p s.name (some op) value).Reads P ↔
        FaultsIn value.Reads P ∨ FaultsIn (Syntax.Expr.var p s.name).Reads P := by
      refine faultsIn_append value.exists_reads ⟨_, .var⟩ fun zs => ⟨fun h => ?_, ?_⟩
      · cases h with
        | compound hv => exact ⟨_, _, hv, .var, rfl⟩
      · rintro ⟨xs, ys, hv, hvar, rfl⟩
        cases hvar
        exact .compound hv
    rw [faultsIn_var] at hreads
    refine (checkExpr_exact h hs.2).bind (fun rhs _ hrhs => ?_) (fun hf => hreads.mpr (Or.inl hf)) fun hnot =>
      hreads.trans (or_iff_right hnot)
    refine (compound_exact h hmem hty p op hrhs).last fun e _ => ?_
    exact Exactly.pure (.assign h hmem (fun _ => rfl) fun _ => rfl)
  | .count p name direction, hs =>
    obtain ⟨s, hmem, hlookup, rfl, hty⟩ := Context.lookup_eq h.proper hs p
    rw [checkSimple, hlookup]
    have hreads : FaultsIn (Syntax.Simple.count p s.name direction).Reads P ↔ ∃ S ∈ P, s.name ∉ S := by
      rw [← @faultsIn_var P p]
      exact faultsIn_congr fun xs => ⟨fun h => by cases h; exact .var, fun h => by cases h; exact .count⟩
    refine ((compound_exact h hmem hty p (countOp direction) rfl).congr hreads.symm).last fun e _ => ?_
    exact Exactly.pure (.assign h hmem (fun _ => rfl) fun _ => rfl)
  | .expr p value, hs =>
    obtain ⟨ty, hty⟩ := hs
    rw [checkSimple]
    have hreads : FaultsIn (Syntax.Simple.expr p value).Reads P ↔ FaultsIn value.Reads P :=
      faultsIn_congr fun xs => ⟨fun h => by cases h; assumption, .expr⟩
    refine ((checkExpr_exact h hty).congr hreads.symm).last fun e _ => ?_
    refine Exactly.pure ⟨?_, rfl, List.Subset.refl _, le_rfl, rfl⟩
    rw [show (fun S => Syntax.afterOf S (some (.expr p value))) = id from rfl, Set.image_id]
    exact h

/-- Checks a part of a loop's head that may be missing. -/
def checkOptional (ctx : Context) : Option Syntax.Simple → Except Diagnostic (List Stmt × Context)
  | none => .ok ([], ctx)
  | some s => do
    let (t, ctx) ← checkSimple ctx s
    return ([t], ctx)

theorem checkOptional_exact (h : ctx.Tracks P) {s : Option Syntax.Simple}
    (hs : Syntax.InOrderOf (typesOf ctx.visible) s) :
    Exactly (checkOptional ctx s) (FaultsIn (Syntax.ReadsOf s) P) fun r => SimpleChecked ctx s P r.2 := by
  cases s with
  | none =>
    have hnone : ¬ FaultsIn (Syntax.ReadsOf none) P := not_faultsIn_nil fun _ h => h
    refine Or.inl ⟨_, rfl, hnone, ?_, rfl, List.Subset.refl _, le_rfl, rfl⟩
    rw [show (fun S => Syntax.afterOf S none) = id from rfl, Set.image_id]
    exact h
  | some s =>
    refine (checkSimple_exact h hs).last fun r hr => ?_
    obtain ⟨t, ctx'⟩ := r
    exact Exactly.pure hr

end Simple

end Chordal.Typed
