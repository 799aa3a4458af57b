/-
# Types of values

Every value of a flow graph carries its type, and a number goes with one type: the
list `types` gives it. Instructions put their operands and targets together by the
rules of their operators; a phi and the values it chooses from have one type.

Graphs that are built from typed trees in order are typed like this. The builder
gives out numbers one after another, so the list grows at its end. It holds a
variable in values of the variable's type, on every edge that waits for a block too,
and so the phis that merge the edges get that type.

Key definitions: `Value.Fits`, `Instr.WellTyped`, `Func.WellTyped`, `Builder.WellTyped`.
Key theorems: `Builder.lowerExpr_wellTyped`, `Builder.lowerStmt_wellTyped`, `build_wellTyped`.
-/
import Mathlib
import Chordal.Proofs.Ssa.ConstructionMeaning
import Chordal.Proofs.Ssa.SoundSteps
import Chordal.Proofs.Typed.Typing

namespace Chordal.Ssa

open Typed (Expr Stmt Symbol)

/-! ### Instructions -/

/-- The value has the type that goes with its number. -/
def Value.Fits (types : List Ty) (v : Value) : Prop := types[v.id]? = some v.ty

variable {types types' : List Ty} {returns : Ty}

theorem Value.Fits.mono {v : Value} (h : v.Fits types) (hle : types <+: types') :
    v.Fits types' := by
  obtain ⟨more, rfl⟩ := hle
  have hlt : v.id < types.length := (List.getElem?_eq_some_iff.mp h).1
  exact (List.getElem?_append_left hlt).trans h

/-- The next value to be given out. -/
theorem Value.fits_next (types : List Ty) (ty : Ty) : Value.Fits (types ++ [ty]) ⟨types.length, ty⟩ :=
  List.getElem?_concat_length

/-- The target and the operands of an instruction have types that go together. -/
def Instr.TypesAgree (returns : Ty) : Instr → Prop
  | .const target _ => target.ty = .int
  | .bool target _ => target.ty = .bool
  | .move target source => source.ty = target.ty
  | .unary target op operand => target.ty = op.operandTy ∧ operand.ty = op.operandTy
  | .binary target op left right =>
    if op.isComparison then target.ty = .bool ∧ left.ty = right.ty
    else target.ty = .int ∧ left.ty = .int ∧ right.ty = .int
  | .phi target entries => ∀ e ∈ entries, e.1.ty = target.ty
  | .jump _ => True
  | .branch condition _ _ => condition.ty = .bool
  | .ret value => value.ty = returns

/-- The types of an instruction go together, and go with the numbers of its values. -/
structure Instr.WellTyped (returns : Ty) (types : List Ty) (i : Instr) : Prop where
  agree : i.TypesAgree returns
  target : ∀ v, i.target? = some v → v.Fits types
  operands : ∀ v ∈ i.operands, v.Fits types

theorem Instr.WellTyped.mono {i : Instr} (h : i.WellTyped returns types) (hle : types <+: types') :
    i.WellTyped returns types' :=
  ⟨h.agree, fun v hv => (h.target v hv).mono hle, fun v hv => (h.operands v hv).mono hle⟩

theorem Instr.wellTyped_jump (returns : Ty) (types : List Ty) (b : BlockId) : (Instr.jump b).WellTyped returns types :=
  ⟨trivial, by simp [Instr.target?], by simp [Instr.operands]⟩

theorem Instr.wellTyped_branch {c : Value} (hty : c.ty = .bool) (hc : c.Fits types) (a b : BlockId) :
    (Instr.branch c a b).WellTyped returns types :=
  ⟨hty, by simp [Instr.target?], by simpa [Instr.operands] using hc⟩

theorem Instr.wellTyped_phi {target : Value} {entries : List (Value × BlockId)}
    (htarget : target.Fits types) (h : ∀ e ∈ entries, e.1.ty = target.ty ∧ e.1.Fits types) :
    (Instr.phi target entries).WellTyped returns types := by
  refine ⟨fun e he => (h e he).1, ?_, fun v hv => ?_⟩
  · rintro v ⟨⟩
    exact htarget
  · obtain ⟨e, he, rfl⟩ := List.mem_map.mp hv
    exact (h e he).2

/-- An instruction that defines the next value is typed if its operands are and the
types go together. -/
theorem Instr.wellTyped_next {ty : Ty} {i : Instr} (htarget : i.target? = some ⟨types.length, ty⟩)
    (hagree : i.TypesAgree returns) (hoperands : ∀ v ∈ i.operands, v.Fits types) :
    i.WellTyped returns (types ++ [ty]) := by
  refine ⟨hagree, fun v hv => ?_, fun v hv => (hoperands v hv).mono (List.prefix_append types [ty])⟩
  obtain rfl := Option.some.inj (htarget.symm.trans hv)
  exact Value.fits_next types ty

/-! ### All instructions of a graph -/

namespace Func

/-- All instructions of the graph are like this. -/
def AllCode (P : Instr → Prop) (f : Func) : Prop := ∀ b, ∀ i ∈ f.code b, P i

/-- The graph of a function that returns `returns` is typed by a list of types, one for
each value. -/
structure WellTyped (returns : Ty) (types : List Ty) (f : Func) : Prop where
  count : types.length = f.valueCount
  code : f.AllCode (Instr.WellTyped returns types)

theorem mem_code {f : Func} {b : BlockId} {i : Instr} : i ∈ f.code b ↔ ∃ blk, f.block? b = some blk ∧ i ∈ blk.code := by
  unfold code
  cases f.block? b with
  | none => simp
  | some blk => simp

namespace AllCode

variable {P Q : Instr → Prop} {f g : Func} {b : BlockId}

theorem imp (h : f.AllCode P) (himp : ∀ i, P i → Q i) : f.AllCode Q := fun b i hi => himp i (h b i hi)

theorem of_blocks (h : f.AllCode P) (heq : g.blocks = f.blocks) : g.AllCode P := by
  intro b i hi
  have hcode : g.code b = f.code b := by rw [code, code, block?, block?, heq]
  exact h b i (hcode ▸ hi)

theorem modifyBlock (h : f.AllCode P) {k : Block → Block}
    (hk : ∀ blk, (∀ i ∈ blk.code, P i) → ∀ i ∈ (k blk).code, P i) : (f.modifyBlock b k).AllCode P := by
  intro c i hi
  obtain ⟨blk, hblk, hi⟩ := mem_code.mp hi
  rw [block?_modifyBlock] at hblk
  split_ifs at hblk with hc
  · obtain ⟨old, hold, rfl⟩ := Option.map_eq_some_iff.mp hblk
    exact hk old (fun j hj => h b j (mem_code.mpr ⟨old, hold, hj⟩)) i hi
  · exact h c i (mem_code.mpr ⟨blk, hblk, hi⟩)

theorem push (h : f.AllCode P) {i : Instr} (hi : P i) : (f.push b i).AllCode P := by
  refine h.modifyBlock fun blk hblk j hj => ?_
  rcases List.mem_append.mp hj with hj | hj
  · exact hblk j hj
  · rwa [List.mem_singleton.mp hj]

theorem addBlock (h : f.AllCode P) (kind : String) : (f.addBlock kind).2.AllCode P := by
  intro c i hi
  rw [code_addBlock] at hi
  exact h c i hi

theorem addEdge (h : f.AllCode P) (a b : BlockId) : (f.addEdge a b).AllCode P := by
  intro c i hi
  rw [code_addEdge] at hi
  exact h c i hi

end AllCode

end Func

/-! ### Builders -/

/-- Variables are held in values of their types. -/
def Bindings.Fit (Γ : Nat → Ty) (types : List Ty) (m : Bindings) : Prop :=
  ∀ x ∈ m, x.2.ty = Γ x.1 ∧ x.2.Fits types

theorem Bindings.Fit.mono {Γ : Nat → Ty} {m : Bindings} (h : m.Fit Γ types) (hle : types <+: types') :
    m.Fit Γ types' := fun x hx => ⟨(h x hx).1, (h x hx).2.mono hle⟩

theorem Bindings.Fit.insert {Γ : Nat → Ty} {j : Nat} {v : Value} (hty : v.ty = Γ j)
    (hv : v.Fits types) : ∀ {m : Bindings}, m.Fit Γ types → Bindings.Fit Γ types (IdMap.insert j v m)
  | [], _ => by
    intro x hx
    rw [IdMap.insert, List.mem_singleton] at hx
    rw [hx]
    exact ⟨hty, hv⟩
  | y :: m, h => by
    have hrest : Bindings.Fit Γ types m := fun x hx => h x (List.mem_cons_of_mem y hx)
    intro x hx
    rw [IdMap.insert] at hx
    split_ifs at hx
    · rcases List.mem_cons.mp hx with rfl | hx
      · exact ⟨hty, hv⟩
      · exact h x hx
    · rcases List.mem_cons.mp hx with rfl | hx
      · exact ⟨hty, hv⟩
      · exact hrest x hx
    · rcases List.mem_cons.mp hx with rfl | hx
      · exact h _ List.mem_cons_self
      · exact Bindings.Fit.insert hty hv hrest x hx

namespace Builder

/-- A graph in the making is typed, and so are the values that hold variables, here and
on the edges that wait. -/
structure WellTyped (returns : Ty) (Γ : Nat → Ty) (types : List Ty) (s : Builder) : Prop where
  count : types.length = s.count
  code : s.func.AllCode (Instr.WellTyped returns types)
  bindings : s.bindings.Fit Γ types
  pending : ∀ e ∈ s.pending, e.bindings.Fit Γ types

/-- A builder that is typed by the list or a longer one. -/
def Typable (returns : Ty) (Γ : Nat → Ty) (types : List Ty) (s : Builder) : Prop :=
  ∃ types', types <+: types' ∧ s.WellTyped returns Γ types'

section Operations

variable {returns : Ty} {Γ : Nat → Ty} {types : List Ty} {s : Builder} (h : s.WellTyped returns Γ types)

include h

theorem WellTyped.emit {i : Instr} (hi : i.WellTyped returns types) : (s.emit i).WellTyped returns Γ types := by
  unfold Builder.emit
  split
  · exact ⟨h.count, h.code.push hi, h.bindings, h.pending⟩
  · exact h

theorem WellTyped.define_fst (ty : Ty) (make : Value → Instr) : (s.define ty make).1 = ⟨types.length, ty⟩ := by
  rw [h.count]
  rfl

/-- An instruction that defines the next value. -/
theorem WellTyped.define {ty : Ty} {make : Value → Instr}
    (hmake : (make ⟨types.length, ty⟩).WellTyped returns (types ++ [ty])) :
    (s.define ty make).2.WellTyped returns Γ (types ++ [ty]) := by
  have hle : types <+: types ++ [ty] := List.prefix_append types [ty]
  have hs : ({ s with func := (s.func.newValue ty).2 } : Builder).WellTyped returns Γ (types ++ [ty]) := by
    refine ⟨?_, (h.code.imp fun i hi => hi.mono hle).of_blocks rfl, h.bindings.mono hle,
      fun e he => (h.pending e he).mono hle⟩
    rw [List.length_append, List.length_singleton, h.count]
    rfl
  rw [← h.define_fst ty make] at hmake
  exact hs.emit hmake

theorem WellTyped.addBlocks (kinds : List String) : (s.addBlocks kinds).WellTyped returns Γ types := by
  induction kinds generalizing s with
  | nil => exact h
  | cons kind kinds ih => exact ih (s := (s.addBlock kind).2) ⟨h.count, h.code.addBlock kind, h.bindings, h.pending⟩

theorem WellTyped.addEdge (a b : BlockId) :
    ({ s with func := s.func.addEdge a b } : Builder).WellTyped returns Γ types :=
  ⟨h.count.trans (Func.valueCount_addEdge s.func a b).symm, h.code.addEdge a b, h.bindings, h.pending⟩

theorem WellTyped.recordEdge (a b : BlockId) : (s.recordEdge a b).WellTyped returns Γ types := by
  have hadd := h.addEdge a b
  refine ⟨hadd.count, hadd.code, h.bindings, fun e he => ?_⟩
  rcases List.mem_append.mp he with he | he
  · exact h.pending e he
  · obtain rfl := List.mem_singleton.mp he
    exact h.bindings

theorem WellTyped.withCurrent (current : Option BlockId) :
    ({ s with current := current } : Builder).WellTyped returns Γ types := ⟨h.count, h.code, h.bindings, h.pending⟩

theorem WellTyped.withLoops (loops : List LoopTargets) :
    ({ s with loops := loops } : Builder).WellTyped returns Γ types := ⟨h.count, h.code, h.bindings, h.pending⟩

theorem WellTyped.bind {j : Nat} {v : Value} (hty : v.ty = Γ j) (hv : v.Fits types) :
    (s.bind j v).WellTyped returns Γ types := ⟨h.count, h.code, Bindings.Fit.insert hty hv h.bindings, h.pending⟩

theorem WellTyped.jump (b : BlockId) : (s.jump b).WellTyped returns Γ types := by
  unfold Builder.jump
  split
  · exact h
  · exact ((h.emit (Instr.wellTyped_jump returns types b)).recordEdge _ b).withCurrent none

theorem WellTyped.fork {c : Value} (hty : c.ty = .bool) (hc : c.Fits types) (kinds : List String) :
    (s.fork kinds c).WellTyped returns Γ types := by
  have hs := h.addBlocks kinds
  unfold Builder.fork Builder.branch
  split
  · exact hs
  · exact (((hs.emit (Instr.wellTyped_branch hty hc _ _)).recordEdge _ _).recordEdge _ _).withCurrent none

end Operations

/-! ### Phis -/

section Phis

variable {returns : Ty} {Γ : Nat → Ty} {types : List Ty}

/-- The phis that merge edges have the types of their variables. -/
theorem mergeBindings_wellTyped {edges : List Edge} : ∀ {m : Bindings} {types : List Ty},
    (∀ e ∈ edges, e.bindings.Fit Γ types) → m.Fit Γ types →
    ∃ types', types <+: types' ∧ types'.length = (mergeBindings edges types.length m).2.2 ∧
      (∀ i ∈ (mergeBindings edges types.length m).1, i.WellTyped returns types') ∧
      Bindings.Fit Γ types' (mergeBindings edges types.length m).2.1
  | [], types, _, _ => ⟨types, List.prefix_rfl, rfl, by simp [mergeBindings], by simp [mergeBindings, Bindings.Fit]⟩
  | (symbol, first) :: rest, types, hedges, hm => by
    have hfirst := hm _ List.mem_cons_self
    have hrest : Bindings.Fit Γ types rest := fun x hx => hm x (List.mem_cons_of_mem _ hx)
    rw [mergeBindings_cons]
    cases hent : edgeEntries edges symbol with
    | none => exact mergeBindings_wellTyped hedges hrest
    | some entries =>
      dsimp only
      split_ifs
      · -- the edges agree on the variable
        obtain ⟨types', hle, hlen, hphis, hmerged⟩ := mergeBindings_wellTyped hedges hrest
        refine ⟨types', hle, hlen, hphis, fun x hx => ?_⟩
        rcases List.mem_cons.mp hx with rfl | hx
        · exact ⟨hfirst.1, hfirst.2.mono hle⟩
        · exact hmerged x hx
      · have hnext : types <+: types ++ [first.ty] := List.prefix_append types [first.ty]
        obtain ⟨types', hle, hlen, hphis, hmerged⟩ := mergeBindings_wellTyped
          (fun e he => (hedges e he).mono hnext) (hrest.mono hnext)
        rw [List.length_append, List.length_singleton] at hlen hphis hmerged
        have htarget : Value.Fits types' ⟨types.length, first.ty⟩ := (Value.fits_next types first.ty).mono hle
        refine ⟨types', hnext.trans hle, hlen, fun i hi => ?_, fun x hx => ?_⟩
        · rcases List.mem_cons.mp hi with rfl | hi
          · refine Instr.wellTyped_phi htarget fun x hx => ?_
            obtain ⟨e, he, hget, -⟩ := edgeEntries_mem hent x hx
            obtain ⟨hty, hfits⟩ := hedges e he _ (IdMap.mem_of_get? hget)
            exact ⟨hty.trans hfirst.1.symm, hfits.mono (hnext.trans hle)⟩
          · exact hphis i hi
        · rcases List.mem_cons.mp hx with rfl | hx
          · exact ⟨hfirst.1, htarget⟩
          · exact hmerged x hx

variable {s : Builder}

theorem WellTyped.enter (h : s.WellTyped returns Γ types) (b : BlockId) : (s.enter b).Typable returns Γ types := by
  have hpending : ∀ e ∈ s.pending.filter fun e => e.target != b, e.bindings.Fit Γ types :=
    fun e he => h.pending e (List.mem_of_mem_filter he)
  have hedges : ∀ e ∈ s.edgesTo b, e.bindings.Fit Γ types := fun e he => h.pending e (List.mem_of_mem_filter he)
  match hb : s.edgesTo b with
  | [] =>
    rw [enter_of_nil hb]
    exact ⟨types, List.prefix_rfl, h.count, h.code, by simp [Bindings.Fit], hpending⟩
  | [e] =>
    rw [enter_of_one hb]
    exact ⟨types, List.prefix_rfl, h.count, h.code, hedges e (by simp [hb]), hpending⟩
  | e :: e' :: rest =>
    obtain ⟨types', hle, hlen, hphis, hmerged⟩ :=
      mergeBindings_wellTyped hedges (hedges e (by simp [hb]))
    have hentry : s.entry b = mergeBindings (s.edgesTo b) types.length e.bindings := by
      rw [entry, hb, h.count]
    rw [← hentry] at hlen hphis hmerged
    rw [enter_eq]
    refine ⟨types', hle, hlen, ?_, hmerged, fun e he => (hpending e he).mono hle⟩
    have hcode : ({ s.func with valueCount := (s.entry b).2.2 } : Func).AllCode (Instr.WellTyped returns types') :=
      (h.code.imp fun i hi => hi.mono hle).of_blocks rfl
    refine hcode.modifyBlock fun blk hblk i hi => ?_
    exact (List.mem_append.mp hi).elim (hphis i) (hblk i)

/-- The phi of a conditional expression. -/
theorem WellTyped.insertPhi (h : s.WellTyped returns Γ types) (b : BlockId) {ty : Ty} {entries : List (Value × BlockId)}
    (hentries : ∀ x ∈ entries, x.1.ty = ty ∧ x.1.Fits types) :
    (s.insertPhi b ty entries).2.WellTyped returns Γ (types ++ [ty]) := by
  have hle : types <+: types ++ [ty] := List.prefix_append types [ty]
  have hphi : (Instr.phi ⟨s.count, ty⟩ entries).WellTyped returns (types ++ [ty]) := by
    refine Instr.wellTyped_phi ?_ fun x hx => ⟨(hentries x hx).1, (hentries x hx).2.mono hle⟩
    rw [← h.count]
    exact Value.fits_next types ty
  have hcode : (s.func.newValue ty).2.AllCode (Instr.WellTyped returns (types ++ [ty])) :=
    (h.code.imp fun i hi => hi.mono hle).of_blocks rfl
  refine ⟨?_, hcode.modifyBlock fun blk hblk i hi => ?_, h.bindings.mono hle, fun e he => (h.pending e he).mono hle⟩
  · rw [List.length_append, List.length_singleton, h.count]
    rfl
  · rcases List.mem_append.mp hi with hi | hi
    · exact hblk i ((List.takeWhile_sublist _).subset hi)
    · rcases List.mem_cons.mp hi with rfl | hi
      · exact hphi
      · exact hblk i ((List.dropWhile_sublist _).subset hi)

/-- The phis at the head of a loop's body, one for each carried variable. -/
theorem WellTyped.header (pre : BlockId) : ∀ (carried : List (Nat × Value)) {s : Builder} {types : List Ty},
    s.WellTyped returns Γ types → Bindings.Fit Γ types carried →
    ∃ types', types <+: types' ∧ (Builder.header pre carried s).2.WellTyped returns Γ types' ∧
      Bindings.Fit Γ types' (Builder.header pre carried s).1
  | [], s, types, h, _ => ⟨types, List.prefix_rfl, h, by simp [Builder.header, Bindings.Fit]⟩
  | (j, v) :: rest, s, types, h, hcarried => by
    have hty : v.ty = Γ j := (hcarried _ List.mem_cons_self).1
    have hv : v.Fits types := (hcarried _ List.mem_cons_self).2
    have hle : types <+: types ++ [v.ty] := List.prefix_append types [v.ty]
    have htarget := Value.fits_next types v.ty
    have hs : (s.define v.ty fun target => .phi target [(v, pre)]).2.WellTyped returns Γ (types ++ [v.ty]) := by
      refine h.define (Instr.wellTyped_phi htarget fun x hx => ?_)
      obtain rfl := List.mem_singleton.mp hx
      exact ⟨rfl, hv.mono hle⟩
    have hphi : (⟨types.length, v.ty⟩ : Value).ty = Γ j := hty
    obtain ⟨types', hle', hs', hothers⟩ := WellTyped.header pre rest (hs.bind hphi htarget)
      fun x hx => ⟨(hcarried x (List.mem_cons_of_mem _ hx)).1, (hcarried x (List.mem_cons_of_mem _ hx)).2.mono hle⟩
    rw [Builder.header]
    dsimp only
    rw [h.define_fst]
    refine ⟨types', hle.trans hle', hs', fun x hx => ?_⟩
    rcases List.mem_cons.mp hx with rfl | hx
    · exact ⟨hty, htarget.mono hle'⟩
    · exact hothers x hx

theorem mem_addPhiEntry {target value : Value} {pred : BlockId} : ∀ {code : List Instr} {i : Instr},
    i ∈ addPhiEntry target value pred code →
    i ∈ code ∨ ∃ entries, .phi target entries ∈ code ∧ i = .phi target (entries ++ [(value, pred)])
  | [], _, h => by cases h
  | j :: code, i, h => by
    have hskip : i ∈ j :: addPhiEntry target value pred code →
        i ∈ j :: code ∨ ∃ entries, .phi target entries ∈ j :: code ∧ i = .phi target (entries ++ [(value, pred)]) := by
      intro hi
      rcases List.mem_cons.mp hi with rfl | hi
      · exact Or.inl List.mem_cons_self
      · refine (mem_addPhiEntry hi).imp (List.mem_cons_of_mem j) ?_
        rintro ⟨entries, hmem, heq⟩
        exact ⟨entries, List.mem_cons_of_mem j hmem, heq⟩
    cases j with
    | phi t entries =>
      rw [addPhiEntry] at h
      split_ifs at h with ht
      · subst ht
        rcases List.mem_cons.mp h with rfl | h
        · exact Or.inr ⟨entries, List.mem_cons_self, rfl⟩
        · exact Or.inl (List.mem_cons_of_mem _ h)
      · exact hskip h
    | const | bool | move | unary | binary | jump | branch | ret => exact hskip h

theorem WellTyped.closeHeader {body latch : BlockId} : ∀ (phis : List (Nat × Value)) {s s' : Builder},
    s.WellTyped returns Γ types → Bindings.Fit Γ types phis → Builder.closeHeader body latch phis s = .ok s' →
    s'.WellTyped returns Γ types
  | [], s, s', h, _, hclose => Except.ok.inj hclose ▸ h
  | (j, phi) :: rest, s, s', h, hphis, hclose => by
    rw [Builder.closeHeader] at hclose
    cases hv : s.bindings.get? j with
    | none =>
      rw [hv] at hclose
      cases hclose
    | some v =>
      rw [hv] at hclose
      dsimp only at hclose
      obtain ⟨hty, hfits⟩ := h.bindings _ (IdMap.mem_of_get? hv)
      have hphi := hphis _ List.mem_cons_self
      have hnext : ({ s with func := s.func.modifyBlock body fun blk =>
          { blk with code := addPhiEntry phi v latch blk.code } } : Builder).WellTyped returns Γ types := by
        refine ⟨h.count, h.code.modifyBlock fun blk hblk i hi => ?_, h.bindings, h.pending⟩
        rcases mem_addPhiEntry hi with hi | ⟨entries, hmem, rfl⟩
        · exact hblk i hi
        · have hold := hblk _ hmem
          refine Instr.wellTyped_phi (hold.target phi rfl) fun x hx => ?_
          rcases List.mem_append.mp hx with hx | hx
          · exact ⟨hold.agree x hx, hold.operands _ (List.mem_map_of_mem hx)⟩
          · obtain rfl := List.mem_singleton.mp hx
            exact ⟨hty.trans hphi.1.symm, hfits⟩
      exact WellTyped.closeHeader rest hnext (fun x hx => hphis x (List.mem_cons_of_mem _ hx)) hclose

end Phis

/-! ### Expressions -/

/-- Symbols have the types that go with their numbers. -/
def Agrees (Γ : Nat → Ty) (symbols : List Symbol) : Prop := ∀ x ∈ symbols, x.ty = Γ x.id

section Agrees

variable {Γ : Nat → Ty} {symbols symbols' : List Symbol}

theorem Agrees.left (h : Agrees Γ (symbols ++ symbols')) : Agrees Γ symbols :=
  fun x hx => h x (List.mem_append_left _ hx)

theorem Agrees.right (h : Agrees Γ (symbols ++ symbols')) : Agrees Γ symbols' :=
  fun x hx => h x (List.mem_append_right _ hx)

theorem Agrees.scope (h : Agrees Γ symbols) {stmt : Stmt} (hdecl : Agrees Γ stmt.declared) :
    Agrees Γ (stmt.scope symbols) := by
  cases stmt with
  | declare x init =>
    intro y hy
    rcases List.mem_cons.mp hy with rfl | hy
    · exact hdecl y (by simp [Stmt.declared])
    · exact h y hy
  | assign | ifElse | while_ | break_ | continue_ | return_ | block | expr => exact h

/-- Where no number stands for two symbols, numbers have types. -/
theorem exists_agrees : ∀ {symbols : List Symbol}, (symbols.map Symbol.id).Nodup → ∃ Γ, Agrees Γ symbols
  | [], _ => ⟨fun _ => .int, by simp [Agrees]⟩
  | x :: symbols, h => by
    obtain ⟨hx, hrest⟩ := List.nodup_cons.mp h
    obtain ⟨Γ, hΓ⟩ := exists_agrees hrest
    refine ⟨fun j => if j = x.id then x.ty else Γ j, fun y hy => ?_⟩
    rcases List.mem_cons.mp hy with rfl | hy
    · exact (if_pos rfl).symm
    · have hne : y.id ≠ x.id := fun heq => hx (heq ▸ List.mem_map_of_mem hy)
      exact (hΓ y hy).trans (if_neg hne).symm

end Agrees

section Expressions

variable {returns : Ty} {Γ : Nat → Ty} {scope : List Symbol}

/-- A builder is typed by the list or a longer one, and so is a value of the type. -/
def Yields (returns : Ty) (Γ : Nat → Ty) (types : List Ty) (ty : Ty) (r : Value × Builder) : Prop :=
  ∃ types', types <+: types' ∧ r.2.WellTyped returns Γ types' ∧ r.1.Fits types' ∧ r.1.ty = ty

theorem WellTyped.yields_define {types types₁ : List Ty} {s : Builder} {ty : Ty} {make : Value → Instr}
    (hle : types <+: types₁) (h : s.WellTyped returns Γ types₁)
    (hmake : (make ⟨types₁.length, ty⟩).WellTyped returns (types₁ ++ [ty])) :
    Yields returns Γ types ty (s.define ty make) := by
  refine ⟨types₁ ++ [ty], hle.trans (List.prefix_append types₁ [ty]), h.define hmake, ?_, ?_⟩
  · rw [h.define_fst]
    exact Value.fits_next types₁ ty
  · rw [h.define_fst]

/-- The types of the operands go with the operator. -/
theorem operandTys_of_binary {op : BinaryOp} {left right : Expr} {ty : Ty}
    (h : (Expr.binary op left right).HasTy scope ty) : ∃ l r, left.HasTy scope l ∧ right.HasTy scope r ∧
      if op.isComparison then ty = .bool ∧ l = r else ty = .int ∧ l = .int ∧ r = .int := by
  cases h with
  | @equality _ _ _ operand hop hl hr =>
    have hcmp : op.isComparison = true := by cases op <;> first | rfl | cases hop
    exact ⟨operand, operand, hl, hr, by simp [hcmp]⟩
  | comparison _ hcmp hl hr => exact ⟨.int, .int, hl, hr, by simp [hcmp]⟩
  | arithmetic hcmp hl hr => exact ⟨.int, .int, hl, hr, by simp [hcmp]⟩

theorem lowerExpr_wellTyped (hΓ : Agrees Γ scope) {e : Expr} {ty : Ty} {types : List Ty} {s : Builder}
    {r : Value × Builder} (he : e.HasTy scope ty) (hs : s.WellTyped returns Γ types) (h : lowerExpr e s = .ok r) :
    Yields returns Γ types ty r := by
  induction e generalizing ty types s r with
  | int value | bool value =>
    cases he
    obtain rfl := Except.ok.inj h
    exact hs.yields_define List.prefix_rfl (Instr.wellTyped_next rfl rfl (by simp [Instr.operands]))
  | var x =>
    cases he with
    | var hx =>
      obtain ⟨v, hv, rfl⟩ := lowerExpr_var.mp h
      obtain ⟨hty, hfits⟩ := hs.bindings _ (IdMap.mem_of_get? hv)
      exact ⟨types, List.prefix_rfl, hs, hfits, hty.trans (hΓ x hx).symm⟩
  | unary op operand ih =>
    cases he with
    | unary hoperand =>
      obtain ⟨v, s₁, h₁, rfl⟩ := lowerExpr_unary.mp h
      obtain ⟨types₁, hle, hs₁, hv, hty⟩ := ih hoperand hs h₁
      rw [hoperand.ty_eq]
      exact hs₁.yields_define hle (Instr.wellTyped_next rfl ⟨rfl, hty⟩ (by simpa [Instr.operands] using hv))
  | binary op left right ihl ihr =>
    obtain ⟨v, s₁, w, s₂, h₁, h₂, rfl⟩ := lowerExpr_binary.mp h
    obtain ⟨l, r, hl, hr, hop⟩ := operandTys_of_binary he
    obtain ⟨types₁, hle₁, hs₁, hv, rfl⟩ := ihl hl hs h₁
    obtain ⟨types₂, hle₂, hs₂, hw, rfl⟩ := ihr hr hs₁ h₂
    rw [he.ty_eq]
    refine hs₂.yields_define (hle₁.trans hle₂) (Instr.wellTyped_next rfl hop fun u hu => ?_)
    rcases List.mem_pair.mp hu with rfl | rfl
    · exact hv.mono hle₂
    · exact hw
  | ternary condition ifTrue ifFalse ihc iht ihe =>
    cases he with
    | ternary hc ht he =>
      obtain ⟨c, s₁, t, s₂, e, s₃, h₁, h₂, h₃, rfl⟩ := lowerExpr_ternary.mp h
      obtain ⟨types₁, hle₁, hs₁, hcfits, hcty⟩ := ihc hc hs h₁
      obtain ⟨types₂, hle₂, henter⟩ := (hs₁.fork hcty hcfits ternaryKinds).enter s₁.size
      obtain ⟨types₃, hle₃, hs₂, htfits, htty⟩ := iht ht henter h₂
      obtain ⟨types₄, hle₄, hsecond⟩ := (hs₂.jump (s₁.size + 2 : Nat)).enter (s₁.size + 1 : Nat)
      obtain ⟨types₅, hle₅, hs₃, hefits, hety⟩ := ihe he hsecond h₃
      obtain ⟨types₆, hle₆, hmerge⟩ := (hs₃.jump (s₁.size + 2 : Nat)).enter (s₁.size + 2 : Nat)
      have hle₃₆ : types₃ <+: types₆ := hle₄.trans (hle₅.trans hle₆)
      have hentries : ∀ x ∈ s₂.armEntry t ++ s₃.armEntry e, x.1.ty = ifTrue.ty ∧ x.1.Fits types₆ := by
        intro x hx
        rw [ht.ty_eq]
        rcases List.mem_append.mp hx with hx | hx
        · obtain ⟨b, -, rfl⟩ := List.mem_map.mp hx
          exact ⟨htty, htfits.mono hle₃₆⟩
        · obtain ⟨b, -, rfl⟩ := List.mem_map.mp hx
          exact ⟨hety, hefits.mono hle₆⟩
      refine ⟨types₆ ++ [ifTrue.ty], ?_, hmerge.insertPhi _ hentries, ?_, ht.ty_eq⟩
      · exact hle₁.trans (hle₂.trans (hle₃.trans (hle₃₆.trans (List.prefix_append _ _))))
      · rw [← hmerge.count]
        exact Value.fits_next types₆ ifTrue.ty

end Expressions

/-! ### Statements -/

section Statements

variable {returns : Ty} {Γ : Nat → Ty} {scope : List Symbol}

theorem assign_wellTyped (hΓ : Agrees Γ scope) {x : Symbol} (hx : x.ty = Γ x.id) {e : Expr} (he : e.HasTy scope x.ty)
    {types : List Ty} {s s' : Builder} (hs : s.WellTyped returns Γ types) (h : s.assign x.id e = .ok s') :
    s'.Typable returns Γ types := by
  obtain ⟨v, s₁, h₁, rfl⟩ := assign_iff.mp h
  obtain ⟨types₁, hle, hs₁, hv, hty⟩ := lowerExpr_wellTyped hΓ he hs h₁
  have hmove : (s₁.define v.ty fun target => .move target v).2.WellTyped returns Γ (types₁ ++ [v.ty]) :=
    hs₁.define (Instr.wellTyped_next rfl rfl (by simpa [Instr.operands] using hv))
  rw [← hs₁.count]
  exact ⟨types₁ ++ [v.ty], hle.trans (List.prefix_append _ _),
    hmove.bind (hty.trans hx) (Value.fits_next types₁ v.ty)⟩

variable {types : List Ty} {s : Builder}

theorem WellTyped.branchLoop (h : s.WellTyped returns Γ types) {c : Value} (hty : c.ty = .bool) (hc : c.Fits types)
    (l : LoopBlocks) (a : BlockId) : (s.branchLoop l a c).WellTyped returns Γ types :=
  ((h.emit (Instr.wellTyped_branch hty hc l.body l.exit)).addEdge a l.body).recordEdge a l.exit

theorem Fit.carried (h : s.bindings.Fit Γ types) (symbols : IdSet) : Bindings.Fit Γ types (s.carried symbols) := by
  intro x hx
  obtain ⟨j, -, hj⟩ := List.mem_filterMap.mp hx
  obtain ⟨v, hv, rfl⟩ := Option.map_eq_some_iff.mp hj
  exact h _ (IdMap.mem_of_get? hv)

theorem WellTyped.startLoop (h : s.WellTyped returns Γ types) {guard : Value} (hty : guard.ty = .bool)
    (hguard : guard.Fits types) (hasStep : Bool) (pre : BlockId) (symbols : IdSet) :
    ∃ types', types <+: types' ∧ (s.startLoop hasStep pre guard symbols).2.WellTyped returns Γ types' ∧
      Bindings.Fit Γ types' (s.startLoop hasStep pre guard symbols).1 := by
  have hadd := h.addBlocks (loopKinds hasStep)
  have hbranch := hadd.branchLoop hty hguard (loopBlocks s.size hasStep) pre
  obtain ⟨types', hle, hs, hphis⟩ := WellTyped.header pre _
    (hbranch.withCurrent (some (loopBlocks s.size hasStep).body)) (Fit.carried hadd.bindings symbols)
  exact ⟨types', hle, hs.withLoops _, hphis⟩

theorem WellTyped.endBody (h : s.WellTyped returns Γ types) (l : LoopBlocks) :
    (s.endBody l).WellTyped returns Γ types :=
  (h.withLoops s.loops.tail).jump l.next

theorem closeLoop_wellTyped (hΓ : Agrees Γ scope) {condition : Expr} (hc : condition.HasTy scope .bool) {l : LoopBlocks}
    {phis : List (Nat × Value)} {s' : Builder} (hs : s.WellTyped returns Γ types) (hphis : Bindings.Fit Γ types phis)
    (h : s.closeLoop l phis condition = .ok s') : s'.Typable returns Γ types := by
  obtain ⟨types₁, hle₁, henter⟩ := hs.enter l.cond
  unfold closeLoop at h
  dsimp only at h
  split at h
  · obtain rfl := Except.ok.inj h
    obtain ⟨types₂, hle₂, hexit⟩ := henter.enter l.exit
    exact ⟨types₂, hle₁.trans hle₂, hexit⟩
  · obtain ⟨⟨v, y⟩, hy, h⟩ := bind_eq_ok.mp h
    obtain ⟨types₂, hle₂, hy, hv, hty⟩ := lowerExpr_wellTyped hΓ hc henter hy
    dsimp only at h
    split at h
    · exact Except.ok.inj h ▸ ⟨types₂, hle₁.trans hle₂, hy⟩
    · obtain ⟨z, hz, h⟩ := bind_eq_ok.mp h
      have hclosed := WellTyped.closeHeader _ hy (hphis.mono (hle₁.trans hle₂)) hz
      obtain rfl := Except.ok.inj h
      obtain ⟨types₃, hle₃, hexit⟩ := ((hclosed.branchLoop hty hv l _).withCurrent none).enter l.exit
      exact ⟨types₃, hle₁.trans (hle₂.trans hle₃), hexit⟩

end Statements

mutual

theorem lowerStmt_wellTyped {returns : Ty} {Γ : Nat → Ty} : ∀ (stmt : Stmt) {inLoop : Bool} {scope : List Symbol}
    {types : List Ty} {s s' : Builder}, Agrees Γ scope → Agrees Γ stmt.declared →
    stmt.WellTyped returns inLoop scope → stmt.KeepsTypes → s.WellTyped returns Γ types → lowerStmt stmt s = .ok s' →
    s'.Typable returns Γ types
  | .declare _ none, _, _, types, s, s', _, _, _, _, hs, h => by
    rw [lowerStmt] at h
    exact Except.ok.inj h ▸ ⟨types, List.prefix_rfl, hs⟩
  | .declare x (some e), _, _, _, s, s', hΓ, hdecl, ht, hk, hs, h => by
    rw [lowerStmt] at h
    rw [Stmt.WellTyped] at ht
    exact assign_wellTyped hΓ (hdecl x (by simp [Stmt.declared])) ht hs h
  | .assign x e, _, _, _, s, s', hΓ, _, ht, hk, hs, h => by
    rw [lowerStmt] at h
    rw [Stmt.WellTyped] at ht
    obtain ⟨hx, ty, he⟩ := ht
    exact assign_wellTyped hΓ (hΓ x hx) ((he.ty_eq.symm.trans hk) ▸ he) hs h
  | .ifElse c t none, _, _, types, s, s', hΓ, hdecl, ht, hk, hs, h => by
    rw [Stmt.WellTyped] at ht
    rw [Stmt.declared] at hdecl
    obtain ⟨v, s₁, s₂, h₁, h₂, rfl⟩ := lowerStmt_if.mp h
    obtain ⟨types₁, hle₁, hs₁, hv, hty⟩ := lowerExpr_wellTyped hΓ ht.1 hs h₁
    obtain ⟨types₂, hle₂, hthen⟩ := (hs₁.fork hty hv ifKinds).enter s₁.size
    obtain ⟨types₃, hle₃, hs₂⟩ := lowerStmts_wellTyped t hΓ hdecl ht.2 hk hthen h₂
    obtain ⟨types₄, hle₄, hmerge⟩ := (hs₂.jump (s₁.size + 1 : Nat)).enter (s₁.size + 1 : Nat)
    exact ⟨types₄, hle₁.trans (hle₂.trans (hle₃.trans hle₄)), hmerge⟩
  | .ifElse c t (some e), _, _, types, s, s', hΓ, hdecl, ht, hk, hs, h => by
    rw [Stmt.WellTyped] at ht
    rw [Stmt.declared] at hdecl
    obtain ⟨v, s₁, s₂, s₃, h₁, h₂, h₃, rfl⟩ := lowerStmt_ifElse.mp h
    obtain ⟨types₁, hle₁, hs₁, hv, hty⟩ := lowerExpr_wellTyped hΓ ht.1 hs h₁
    obtain ⟨types₂, hle₂, hthen⟩ := (hs₁.fork hty hv ifElseKinds).enter s₁.size
    obtain ⟨types₃, hle₃, hs₂⟩ := lowerStmts_wellTyped t hΓ hdecl.left ht.2.1 hk.1 hthen h₂
    obtain ⟨types₄, hle₄, helse⟩ := (hs₂.jump (s₁.size + 2 : Nat)).enter (s₁.size + 1 : Nat)
    obtain ⟨types₅, hle₅, hs₃⟩ := lowerStmts_wellTyped e hΓ hdecl.right ht.2.2 hk.2 helse h₃
    obtain ⟨types₆, hle₆, hmerge⟩ := (hs₃.jump (s₁.size + 2 : Nat)).enter (s₁.size + 2 : Nat)
    exact ⟨types₆, hle₁.trans (hle₂.trans (hle₃.trans (hle₄.trans (hle₅.trans hle₆)))), hmerge⟩
  | .while_ c body none, _, _, types, s, s', hΓ, hdecl, ht, hk, hs, h => by
    rw [Stmt.WellTyped] at ht
    rw [Stmt.declared] at hdecl
    obtain ⟨v, s₁, h₁, hcases⟩ := lowerStmt_while_cases.mp h
    obtain ⟨types₁, hle₁, hs₁, hv, hty⟩ := lowerExpr_wellTyped hΓ ht.1 hs h₁
    obtain ⟨-, rfl⟩ | ⟨pre, -, s₂, h₂, h₃⟩ := hcases
    · exact ⟨types₁, hle₁, hs₁⟩
    · obtain ⟨types₂, hle₂, hstart, hphis⟩ := hs₁.startLoop hty hv false pre (assigned body)
      obtain ⟨types₃, hle₃, hs₂⟩ := lowerStmts_wellTyped body hΓ hdecl ht.2 hk hstart h₂
      obtain ⟨types₄, hle₄, hs'⟩ := closeLoop_wellTyped hΓ ht.1 (hs₂.endBody (loopBlocks s₁.size false))
        (hphis.mono hle₃) h₃
      exact ⟨types₄, hle₁.trans (hle₂.trans (hle₃.trans hle₄)), hs'⟩
  | .while_ c body (some step), _, _, types, s, s', hΓ, hdecl, ht, hk, hs, h => by
    rw [Stmt.WellTyped] at ht
    rw [Stmt.declared] at hdecl
    obtain ⟨v, s₁, h₁, hcases⟩ := lowerStmt_while_cases.mp h
    obtain ⟨types₁, hle₁, hs₁, hv, hty⟩ := lowerExpr_wellTyped hΓ ht.1 hs h₁
    obtain ⟨-, rfl⟩ | ⟨pre, -, s₂, s₃, h₂, h₃, h₄⟩ := hcases
    · exact ⟨types₁, hle₁, hs₁⟩
    · obtain ⟨types₂, hle₂, hstart, hphis⟩ := hs₁.startLoop hty hv true pre
        (IdSet.union (assigned body) (assigned step))
      obtain ⟨types₃, hle₃, hs₂⟩ := lowerStmts_wellTyped body hΓ hdecl.left ht.2.1 hk.1 hstart h₂
      obtain ⟨types₄, hle₄, hnext⟩ := (hs₂.endBody (loopBlocks s₁.size true)).enter (loopBlocks s₁.size true).next
      obtain ⟨types₅, hle₅, hs₃⟩ := lowerStmts_wellTyped step hΓ hdecl.right ht.2.2 hk.2 hnext h₃
      obtain ⟨types₆, hle₆, hs'⟩ := closeLoop_wellTyped hΓ ht.1 (hs₃.jump (loopBlocks s₁.size true).cond)
        (hphis.mono (hle₃.trans (hle₄.trans hle₅))) h₄
      exact ⟨types₆, hle₁.trans (hle₂.trans (hle₃.trans (hle₄.trans (hle₅.trans hle₆)))), hs'⟩
  | .break_, _, _, types, s, s', _, _, _, _, hs, h => by
    obtain ⟨l, rest, -, rfl⟩ := lowerStmt_break.mp h
    exact ⟨types, List.prefix_rfl, hs.jump _⟩
  | .continue_, _, _, types, s, s', _, _, _, _, hs, h => by
    obtain ⟨l, rest, -, rfl⟩ := lowerStmt_continue.mp h
    exact ⟨types, List.prefix_rfl, hs.jump _⟩
  | .return_ e, _, _, types, s, s', hΓ, _, ht, hk, hs, h => by
    rw [Stmt.WellTyped] at ht
    obtain ⟨v, s₁, h₁, rfl⟩ := lowerStmt_return.mp h
    obtain ⟨types₁, hle, hs₁, hv, hty⟩ := lowerExpr_wellTyped hΓ ht hs h₁
    have hret : (Instr.ret v).WellTyped returns types₁ :=
      ⟨hty, by simp [Instr.target?], by simpa [Instr.operands] using hv⟩
    exact ⟨types₁, hle, (hs₁.emit hret).withCurrent none⟩
  | .block body, _, _, _, s, s', hΓ, hdecl, ht, hk, hs, h => by
    rw [Stmt.WellTyped] at ht
    rw [Stmt.declared] at hdecl
    rw [lowerStmt] at h
    exact lowerStmts_wellTyped body hΓ hdecl ht hk hs h
  | .expr e, _, _, _, s, s', hΓ, _, ht, hk, hs, h => by
    rw [Stmt.WellTyped] at ht
    obtain ⟨ty, he⟩ := ht
    obtain ⟨v, h₁⟩ := lowerStmt_expr.mp h
    obtain ⟨types₁, hle, hs₁, -, -⟩ := lowerExpr_wellTyped hΓ he hs h₁
    exact ⟨types₁, hle, hs₁⟩

theorem lowerStmts_wellTyped {returns : Ty} {Γ : Nat → Ty} : ∀ (stmts : List Stmt) {inLoop : Bool} {scope : List Symbol}
    {types : List Ty} {s s' : Builder}, Agrees Γ scope → Agrees Γ (Typed.declaredAll stmts) →
    Typed.AllWellTyped returns inLoop scope stmts → Typed.AllKeepTypes stmts → s.WellTyped returns Γ types →
    lowerStmts stmts s = .ok s' → s'.Typable returns Γ types
  | [], _, _, types, s, s', _, _, _, _, hs, h => by
    rw [lowerStmts] at h
    exact Except.ok.inj h ▸ ⟨types, List.prefix_rfl, hs⟩
  | stmt :: rest, _, scope, types, s, s', hΓ, hdecl, ht, hk, hs, h => by
    rw [Typed.AllWellTyped] at ht
    rw [Typed.declaredAll] at hdecl
    cases hcur : s.current with
    | none =>
      rw [lowerStmts_of_none hcur] at h
      exact Except.ok.inj h ▸ ⟨types, List.prefix_rfl, hs⟩
    | some a =>
      obtain ⟨s₁, h₁, h₂⟩ := (lowerStmts_cons hcur).mp h
      obtain ⟨types₁, hle₁, hs₁⟩ := lowerStmt_wellTyped stmt hΓ hdecl.left ht.1 hk.1 hs h₁
      obtain ⟨types₂, hle₂, hs₂⟩ := lowerStmts_wellTyped rest (hΓ.scope hdecl.left) hdecl.right ht.2 hk.2 hs₁ h₂
      exact ⟨types₂, hle₁.trans hle₂, hs₂⟩

end

end Builder

/-- The graph of a typed function is typed. -/
theorem build_wellTyped {t : Typed.Func} {f : Func} (ht : t.WellFormed) (hk : t.KeepsTypes) (h : build t = .ok f) :
    ∃ types, f.WellTyped f.returns types := by
  obtain ⟨s, hs, h⟩ := bind_eq_ok.mp h
  obtain ⟨Γ, hΓ⟩ := Builder.exists_agrees ht.declared
  have hempty : (Func.empty t.name t.returns t.isEntry).AllCode (Instr.WellTyped t.returns []) :=
    fun b i hi => by cases hi
  have hstart : (Builder.start t).WellTyped t.returns Γ [] :=
    ⟨rfl, (hempty.addBlock "entry").of_blocks rfl, by simp [Builder.start, Bindings.Fit], by simp [Builder.start]⟩
  have hscope : Builder.Agrees Γ [] := by simp [Builder.Agrees]
  obtain ⟨types, -, htyped⟩ := Builder.lowerStmts_wellTyped t.body hscope hΓ ht.typed hk hstart hs
  have hreturns : s.func.returns = t.returns :=
    congrArg (fun head => head.2.1) (Builder.lowerStmts_extends t.body (good_start t) hs).grows.head
  split at h
  · cases h
  · obtain rfl := Except.ok.inj h
    exact ⟨types, htyped.count, hreturns ▸ htyped.code⟩

end Chordal.Ssa
